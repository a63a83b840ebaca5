import DistributedLabs.Checker.Ledger
import DistributedLabs.Library.Phases
import Mathlib.Order.WellFounded

/-!
The candidate set of the checker is exact. The version that a write was given tells
whether another write completed since, the reference count whether another one is
still in progress; together they detect the isolated writes, because a later write
begins after the one that completes. A candidate is a completed write with no
isolated successful write to its key after it.
-/

namespace CheckerLab

variable {K V β : Type}

namespace Ledger

variable {s t : Ledger K V β} {c d : Completed K V β} {w : Call K V β}

/-- The numbers of the calls grow, and `completed` is in the order of completion. -/
structure Ordered (s : Ledger K V β) : Prop where
  active : ∀ w ∈ s.active, w.begunAt < s.seq
  begun : ∀ c ∈ s.completed, c.begunAt < s.seq
  completed : ∀ c ∈ s.completed, c.completedAt < s.seq
  newest : s.completed.Pairwise fun c d => d.completedAt < c.completedAt

theorem current_congr (hcomp : t.completed = s.completed)
    (hiso : ∀ c ∈ s.completed, (t.Isolated c ↔ s.Isolated c)) :
    t.Current c ↔ s.Current c := by
  have hsettles : ∀ d, t.Settles d ↔ s.Settles d := by
    intro d
    simp only [Settles, hcomp]
    constructor
    · rintro ⟨hd, he, hi⟩
      exact ⟨hd, he, (hiso d hd).mp hi⟩
    · rintro ⟨hd, he, hi⟩
      exact ⟨hd, he, (hiso d hd).mpr hi⟩
  simp only [Current, hcomp, hsettles]

/-- A write that moves from the active to the completed ones, as the newest. -/
structure Completes (s t : Ledger K V β) (w : Call K V β) (c : Completed K V β) : Prop where
  active : (w :: t.active).Perm s.active
  completed : t.completed = c :: s.completed
  call : c.toCall = w
  completedAt : c.completedAt = s.seq

section Completion

variable (h : Completes s t w c) (ho : s.Ordered)

include h ho

theorem completedAt_lt_new (hd : d ∈ s.completed) : d.completedAt < c.completedAt := by
  rw [h.completedAt]
  exact ho.completed d hd

theorem ne_new (hd : d ∈ s.completed) : d ≠ c := by
  rintro rfl
  exact Nat.lt_irrefl _ (completedAt_lt_new h ho hd)

theorem isolated_completes_old (hd : d ∈ s.completed) : t.Isolated d ↔ s.Isolated d := by
  have hne := (ne_new h ho hd).symm
  have hbegun := ho.begun d hd
  obtain ⟨hact, hcomp, hcall, hat⟩ := h
  simp only [Isolated, hcomp, ← hact.mem_iff, List.forall_mem_cons, ← hcall]
  constructor
  · rintro ⟨hrest, hnew, hold⟩
    refine ⟨⟨?_, hrest⟩, hold⟩
    intro hk
    exact (hnew hne hk).resolve_left (by omega)
  · rintro ⟨⟨hw, hrest⟩, hold⟩
    exact ⟨hrest, fun _ hk => Or.inr (hw hk), hold⟩

theorem isolated_completes_new : t.Isolated c ↔
    (∀ u ∈ t.active, u.key ≠ w.key) ∧
      ∀ d ∈ s.completed, d.key = w.key → d.completedAt < w.begunAt := by
  have hne := fun d => ne_new h ho (d := d)
  obtain ⟨hact, hcomp, hcall, hat⟩ := h
  simp only [Isolated, hcomp, List.forall_mem_cons, ← hcall]
  constructor
  · rintro ⟨hrest, _, hold⟩
    refine ⟨?_, ?_⟩
    · intro u hu hk
      have hlt := ho.active u (hact.mem_iff.mp (List.mem_cons_of_mem _ hu))
      exact absurd (hrest u hu hk) (by omega)
    · intro d hd hk
      have hbegun := ho.begun d hd
      exact (hold d hd (hne d hd) hk).resolve_right (by omega)
  · rintro ⟨hrest, hold⟩
    refine ⟨fun u hu hk => absurd hk (hrest u hu), fun hne => absurd rfl hne, ?_⟩
    intro d hd _ hk
    exact Or.inl (hold d hd hk)

theorem settles_completes_old (hd : d ∈ s.completed) : t.Settles d ↔ s.Settles d := by
  have hiso := isolated_completes_old h ho hd
  have hd' : d ∈ t.completed := by
    rw [h.completed]
    exact List.mem_cons_of_mem _ hd
  simp only [Settles, hd, hd', hiso]

/-- An isolated successful write leaves itself as the only candidate of its key. -/
theorem current_settled (hs : t.Settles c) :
    t.Current d ↔ d = c ∨ d.key ≠ c.key ∧ s.Current d := by
  have hlt := fun e => completedAt_lt_new h ho (d := e)
  have hsettles := fun e => settles_completes_old h ho (d := e)
  constructor
  · rintro ⟨hd, hlast⟩
    rw [h.completed, List.mem_cons] at hd
    rcases hd with rfl | hd
    · exact Or.inl rfl
    · refine Or.inr ⟨?_, hd, ?_⟩
      · intro hk
        exact absurd (hlast c hs hk.symm) (by have := hlt d hd; omega)
      · intro e he hk
        exact hlast e ((hsettles e he.1).mpr he) hk
  · rintro (rfl | ⟨hk, hd, hlast⟩)
    · refine ⟨hs.1, ?_⟩
      intro e he _
      have hmem := he.1
      rw [h.completed, List.mem_cons] at hmem
      rcases hmem with rfl | hmem
      · exact Nat.le_refl _
      · exact Nat.le_of_lt (hlt e hmem)
    · refine ⟨by rw [h.completed]; exact List.mem_cons_of_mem _ hd, ?_⟩
      intro e he hke
      have hmem := he.1
      rw [h.completed, List.mem_cons] at hmem
      rcases hmem with rfl | hmem
      · exact absurd hke.symm hk
      · exact hlast e ((hsettles e hmem).mp he) hke

/-- Any other write joins the candidates. -/
theorem current_unsettled (hs : ¬ t.Settles c) : t.Current d ↔ d = c ∨ s.Current d := by
  have hlt := fun e => completedAt_lt_new h ho (d := e)
  have hsettles := fun e => settles_completes_old h ho (d := e)
  have hold : ∀ e, t.Settles e → e ∈ s.completed := by
    intro e he
    have hmem := he.1
    rw [h.completed, List.mem_cons] at hmem
    rcases hmem with rfl | hmem
    · exact absurd he hs
    · exact hmem
  constructor
  · rintro ⟨hd, hlast⟩
    rw [h.completed, List.mem_cons] at hd
    rcases hd with rfl | hd
    · exact Or.inl rfl
    · exact Or.inr ⟨hd, fun e he hk => hlast e ((hsettles e he.1).mpr he) hk⟩
  · rintro (rfl | ⟨hd, hlast⟩)
    · refine ⟨by rw [h.completed]; exact List.mem_cons_self, ?_⟩
      exact fun e he _ => Nat.le_of_lt (hlt e (hold e he))
    · refine ⟨by rw [h.completed]; exact List.mem_cons_of_mem _ hd, ?_⟩
      exact fun e he hk => hlast e ((hsettles e (hold e he)).mp he) hk

theorem current_new : t.Current c := by
  by_cases hs : t.Settles c
  · exact (current_settled h ho hs).mpr (Or.inl rfl)
  · exact (current_unsettled h ho hs).mpr (Or.inl rfl)

theorem current_other_key (hk : d.key ≠ c.key) (hd : s.Current d) : t.Current d := by
  by_cases hs : t.Settles c
  · exact (current_settled h ho hs).mpr (Or.inr ⟨hk, hd⟩)
  · exact (current_unsettled h ho hs).mpr (Or.inr hd)

theorem current_of_completes (hd : d ∈ s.completed) (hcur : t.Current d) : s.Current d := by
  have hne := ne_new h ho hd
  by_cases hs : t.Settles c
  · exact (((current_settled h ho hs).mp hcur).resolve_left hne).2
  · exact ((current_unsettled h ho hs).mp hcur).resolve_left hne

end Completion

theorem ordered_completes (ho : s.Ordered) (h : Completes s t w c)
    (hseq : t.seq = s.seq + 1) : t.Ordered := by
  have hw : w ∈ s.active := h.active.mem_iff.mp List.mem_cons_self
  constructor
  · intro u hu
    have hlt := ho.active u (h.active.mem_iff.mp (List.mem_cons_of_mem _ hu))
    omega
  · rw [h.completed, List.forall_mem_cons, hseq]
    refine ⟨?_, fun d hd => Nat.lt_succ_of_lt (ho.begun d hd)⟩
    have hlt := ho.active w hw
    rw [← h.call] at hlt
    exact Nat.lt_succ_of_lt hlt
  · rw [h.completed, List.forall_mem_cons, hseq, h.completedAt]
    exact ⟨Nat.lt_succ_self _, fun d hd => Nat.lt_succ_of_lt (ho.completed d hd)⟩
  · rw [h.completed, List.pairwise_cons]
    exact ⟨fun d hd => completedAt_lt_new h ho hd, ho.newest⟩

theorem current_progress {i : Nat} (hw : s.active[i]? = some w) (client : β) :
    Current { s with active := s.active.set i { w with client } } c ↔ s.Current c :=
  current_congr rfl fun _ _ => and_congr_left fun _ => Phases.forall_move _ hw rfl

theorem current_beginWrite [DecidableEq K] (ho : s.Ordered) {flags : Flags} {key : K}
    {value : V} {client : β} : (s.beginWrite flags key value client).Current c ↔ s.Current c := by
  refine current_congr rfl fun c hc => ?_
  have hlt := ho.completed c hc
  simp only [Isolated, Ledger.beginWrite, List.forall_mem_append, List.forall_mem_singleton]
  constructor
  · exact fun h => ⟨h.1.1, h.2⟩
  · exact fun h => ⟨⟨h.1, fun _ => hlt⟩, h.2⟩

theorem completes_of_getElem? {i : Nat} (hw : s.active[i]? = some w)
    (cc : ConsistencyChecker K V) (hc : c.toCall = w) (hat : c.completedAt = s.seq) :
    Completes s { s with
      cc
      active := s.active.eraseIdx i
      completed := c :: s.completed
      seq := s.seq + 1 } w c := by
  obtain ⟨hi, rfl⟩ := List.getElem?_eq_some_iff.mp hw
  exact ⟨List.getElem_cons_eraseIdx_perm hi, rfl, hc, hat⟩

/-- The last completed write to the key that succeeded and was isolated. -/
def Last (s : Ledger K V β) (k : K) (c : Completed K V β) : Prop :=
  s.Settles c ∧ c.key = k ∧ ∀ d, s.Settles d → d.key = k → d.completedAt ≤ c.completedAt

theorem exists_last (ho : s.Ordered) {k : K} (hc : s.Settles c) (hk : c.key = k) :
    ∃ d, s.Last k d := by
  obtain ⟨d, ⟨hd, hdk⟩, hmin⟩ := (measure fun d : Completed K V β =>
    s.seq - d.completedAt).wf.has_min {d | s.Settles d ∧ d.key = k} ⟨c, hc, hk⟩
  refine ⟨d, hd, hdk, ?_⟩
  intro e he hek
  have hnot : ¬ s.seq - e.completedAt < s.seq - d.completedAt := hmin e ⟨he, hek⟩
  have hlt := ho.completed e he.1
  omega

theorem completedAt_inj (ho : s.Ordered) (hc : c ∈ s.completed) (hd : d ∈ s.completed)
    (h : c.completedAt = d.completedAt) : c = d := by
  have hnodup : (s.completed.map (·.completedAt)).Nodup :=
    List.pairwise_map.mpr (ho.newest.imp fun hlt => Nat.ne_of_gt hlt)
  exact List.inj_on_of_nodup_map hnodup hc hd h

/-- With a last settling write, the candidates are that write and the later ones. -/
theorem current_iff_last (ho : s.Ordered) {k : K} (hd : s.Last k d) (hk : c.key = k) :
    s.Current c ↔ c = d ∨ c ∈ s.completed ∧ d.completedAt < c.completedAt := by
  obtain ⟨hset, hdk, hlast⟩ := hd
  constructor
  · rintro ⟨hc, hmax⟩
    rcases Nat.eq_or_lt_of_le (hmax d hset (hdk.trans hk.symm)) with heq | hlt
    · exact Or.inl (completedAt_inj ho hset.1 hc heq).symm
    · exact Or.inr ⟨hc, hlt⟩
  · rintro (rfl | ⟨hc, hlt⟩)
    · exact ⟨hset.1, fun e he hek => hlast e he (hek.trans hk)⟩
    · refine ⟨hc, fun e he hek => ?_⟩
      have hle := hlast e he (hek.trans hk)
      omega

/-- The values used so far, with their keys. -/
def labels (s : Ledger K V β) : List (K × V) :=
  s.active.map (fun w => (w.key, w.value)) ++ s.completed.map fun c => (c.key, c.value)

theorem labels_completes (h : Completes s t w c) : t.labels.Perm s.labels := by
  have hact := h.active.map fun u => (u.key, u.value)
  simp only [labels, h.completed, List.map_cons, ← h.call] at hact ⊢
  exact List.perm_middle.trans (hact.append_right _)

variable [DecidableEq K] [DecidableEq V]

/-- What the checker stores for each key, in terms of the writes. -/
structure Sound (s : Ledger K V β) : Prop extends Ordered s where
  alive : s.panicked = false
  apart : s.labels.Nodup
  rc : ∀ k, s.cc.rc k = s.active.countP (·.key = k)
  version : ∀ k, s.cc.version k = s.completed.countP (·.key = k)
  initialVersion : ∀ w ∈ s.active, w.initialVersion =
    s.completed.countP fun c => c.key = w.key && c.completedAt < w.begunAt
  entry : ∀ c ∈ s.completed, c.entry.value = c.value
  values : ∀ k v val, (s.cc.values k).lookup v = some val ↔
    ∃ c, s.Current c ∧ c.key = k ∧ c.value = v ∧ c.entry = val
  overwritten : ∀ k v val, (s.cc.overwrittenValues k).lookup v = some val ↔
    ∃ c ∈ s.completed, ¬ s.Current c ∧ c.key = k ∧ c.value = v ∧ c.entry = val

/-- The version and the reference count detect the isolated writes. -/
theorem isolated_iff_detected (hs : s.Sound) (h : Completes s t w c) :
    t.Isolated c ↔ w.initialVersion = s.cc.version w.key ∧ s.cc.rc w.key = 1 := by
  have hw : w ∈ s.active := h.active.mem_iff.mp List.mem_cons_self
  rw [isolated_completes_new h hs.toOrdered, hs.rc, hs.version, hs.initialVersion w hw,
    ← h.active.countP_eq, Int.ofNat_inj, Phases.countP_and_eq]
  constructor
  · rintro ⟨hrest, hold⟩
    refine ⟨by simpa using hold, ?_⟩
    have hzero : t.active.countP (·.key = w.key) = 0 :=
      List.countP_eq_zero.mpr (by simpa using hrest)
    simp [hzero]
  · rintro ⟨hold, hone⟩
    refine ⟨?_, by simpa using hold⟩
    have hzero : t.active.countP (·.key = w.key) = 0 := by
      simp only [List.countP_cons, decide_true, if_true] at hone
      omega
    simpa using List.countP_eq_zero.mp hzero

theorem Sound.value_inj (hs : s.Sound) (hc : c ∈ s.completed) (hd : d ∈ s.completed)
    (hk : c.key = d.key) (hv : c.value = d.value) : c = d := by
  have hnodup := (List.nodup_append.mp hs.apart).2.1
  exact List.inj_on_of_nodup_map hnodup hc hd (by simp [hk, hv])

/-- A value that is still being written has not been recorded. -/
theorem Sound.unrecorded (hs : s.Sound) (hw : w ∈ s.active) (hc : c ∈ s.completed)
    (hk : c.key = w.key) : c.value ≠ w.value := by
  intro hv
  have hdisj := (List.nodup_append.mp hs.apart).2.2
  exact hdisj _ (List.mem_map.mpr ⟨w, hw, rfl⟩) _ (List.mem_map.mpr ⟨c, hc, rfl⟩)
    (by simp [hk, hv])

theorem Sound.rc_eq_zero (hs : s.Sound) {k : K} :
    s.cc.rc k = 0 ↔ ∀ w ∈ s.active, w.key ≠ k := by
  rw [hs.rc, Int.natCast_eq_zero, List.countP_eq_zero]
  simp

theorem mem_values_iff (hs : s.Sound) {k : K} {v : V} :
    v ∈ s.cc.values k ↔ ∃ c, s.Current c ∧ c.key = k ∧ c.value = v := by
  rw [← AList.lookup_isSome, Option.isSome_iff_exists]
  simp only [hs.values]
  constructor
  · rintro ⟨_, c, hc, hk, hv, _⟩
    exact ⟨c, hc, hk, hv⟩
  · rintro ⟨c, hc, hk, hv⟩
    exact ⟨c.entry, c, hc, hk, hv, rfl⟩

theorem mem_overwritten_iff (hs : s.Sound) {k : K} {v : V} :
    v ∈ s.cc.overwrittenValues k ↔
      ∃ c ∈ s.completed, ¬ s.Current c ∧ c.key = k ∧ c.value = v := by
  rw [← AList.lookup_isSome, Option.isSome_iff_exists]
  simp only [hs.overwritten]
  constructor
  · rintro ⟨_, c, hc, hn, hk, hv, _⟩
    exact ⟨c, hc, hn, hk, hv⟩
  · rintro ⟨c, hc, hn, hk, hv⟩
    exact ⟨c.entry, c, hc, hn, hk, hv, rfl⟩

section Steps

variable {flags : Flags}

theorem sound_init : (writes K V β flags).init.Sound where
  active := by simp [writes]
  begun := by simp [writes]
  completed := by simp [writes]
  newest := by simp [writes]
  alive := rfl
  apart := by simp [writes, labels]
  rc := by simp [writes, makeConsistencyChecker]
  version := by simp [writes, makeConsistencyChecker]
  initialVersion := by simp [writes]
  entry := by simp [writes]
  values := by simp [writes, makeConsistencyChecker, Current]
  overwritten := by simp [writes, makeConsistencyChecker]

theorem sound_beginWrite (hs : s.Sound) (hc : flags.checkCorrectness = true) {key : K}
    {value : V} {client : β} (hfresh : s.FreshValue (.beginWrite key value client)) :
    (s.beginWrite flags key value client).Sound := by
  have hcur : ∀ c, (s.beginWrite flags key value client).Current c ↔ s.Current c :=
    fun c => current_beginWrite hs.toOrdered
  constructor
  · constructor
    · simp only [Ledger.beginWrite, List.forall_mem_append, List.forall_mem_singleton]
      exact ⟨fun w hw => Nat.lt_succ_of_lt (hs.active w hw), Nat.lt_succ_self _⟩
    · exact fun c hc => Nat.lt_succ_of_lt (hs.begun c hc)
    · exact fun c hc => Nat.lt_succ_of_lt (hs.completed c hc)
    · exact hs.newest
  · exact hs.alive
  · have hperm : (s.beginWrite flags key value client).labels.Perm
        ((key, value) :: s.labels) := by
      simp only [labels, Ledger.beginWrite, List.map_append, List.map_cons, List.map_nil,
        List.append_assoc, List.cons_append, List.nil_append]
      exact List.perm_middle
    rw [hperm.nodup_iff, List.nodup_cons]
    refine ⟨?_, hs.apart⟩
    intro hmem
    rcases List.mem_append.mp hmem with hmem | hmem
    · obtain ⟨w, hw, heq⟩ := List.mem_map.mp hmem
      exact hfresh.1 w hw (congrArg Prod.fst heq) (congrArg Prod.snd heq)
    · obtain ⟨c, hc, heq⟩ := List.mem_map.mp hmem
      exact hfresh.2 c hc (congrArg Prod.fst heq) (congrArg Prod.snd heq)
  · intro k
    simp only [Ledger.beginWrite, ConsistencyChecker.beginWrite_enabled hc,
      List.countP_append, List.countP_singleton, Function.update_apply]
    by_cases hk : k = key
    · subst hk
      simp [hs.rc]
    · simp [hs.rc, hk, Ne.symm hk]
  · intro k
    simp only [Ledger.beginWrite, ConsistencyChecker.beginWrite_enabled hc]
    exact hs.version k
  · simp only [Ledger.beginWrite, ConsistencyChecker.beginWrite_enabled hc,
      List.forall_mem_append, List.forall_mem_singleton]
    refine ⟨hs.initialVersion, ?_⟩
    rw [hs.version, Int.ofNat_inj, eq_comm, Phases.countP_and_eq]
    exact fun c hc _ => decide_eq_true (hs.completed c hc)
  · exact hs.entry
  · intro k v val
    simp only [hcur]
    simpa only [Ledger.beginWrite, ConsistencyChecker.beginWrite_enabled hc] using
      hs.values k v val
  · intro k v val
    simp only [hcur]
    simpa only [Ledger.beginWrite, ConsistencyChecker.beginWrite_enabled hc] using
      hs.overwritten k v val

/-- The checker does not see what a client does between its calls. -/
theorem sound_progress (hs : s.Sound) {i : Nat} {client : β}
    (hw : s.active[i]? = some w) :
    Sound { s with active := s.active.set i { w with client } } := by
  have hcur : ∀ c, Current { s with active := s.active.set i { w with client } } c ↔
      s.Current c :=
    fun c => current_progress hw client
  constructor
  · exact ⟨(Phases.forall_move { w with client } hw rfl).mpr hs.active, hs.begun,
      hs.completed, hs.newest⟩
  · exact hs.alive
  · have hlabels := Phases.map_move (b := { w with client })
      (f := fun u : Call K V β => (u.key, u.value)) hw rfl
    simpa only [labels, hlabels] using hs.apart
  · intro k
    simp only [Phases.countP_keep (fun u : Call K V β => decide (u.key = k))
      { w with client } hw rfl]
    exact hs.rc k
  · exact hs.version
  · exact (Phases.forall_move { w with client } hw rfl).mpr hs.initialVersion
  · exact hs.entry
  · simpa only [hcur] using hs.values
  · simpa only [hcur] using hs.overwritten

/-- The counts of the checker and the versions given to the writes in progress. -/
theorem counts_completes (hs : s.Sound) (h : Completes s t w c)
    (hrc : t.cc.rc = Function.update s.cc.rc w.key (s.cc.rc w.key - 1))
    (hversion : t.cc.version = Function.update s.cc.version w.key (s.cc.version w.key + 1)) :
    (∀ k, t.cc.rc k = t.active.countP (·.key = k)) ∧
    (∀ k, t.cc.version k = t.completed.countP (·.key = k)) ∧
    ∀ u ∈ t.active, u.initialVersion =
      t.completed.countP fun c => c.key = u.key && c.completedAt < u.begunAt := by
  have hkey : c.key = w.key := by rw [← h.call]
  refine ⟨?_, ?_, ?_⟩
  · intro k
    have hcount := hs.rc k
    rw [← h.active.countP_eq, List.countP_cons] at hcount
    rw [hrc, Function.update_apply]
    by_cases hk : k = w.key
    · subst hk
      simp only [decide_true, if_true] at hcount
      rw [if_pos rfl]
      omega
    · simpa [hk, Ne.symm hk] using hcount
  · intro k
    rw [hversion, Function.update_apply, h.completed, List.countP_cons, hkey]
    by_cases hk : k = w.key
    · subst hk
      simp [hs.version]
    · simp [hk, Ne.symm hk, hs.version]
  · intro u hu
    have hu' := h.active.mem_iff.mp (List.mem_cons_of_mem _ hu)
    have hlt := hs.active u hu'
    have hnot : ¬ c.completedAt < u.begunAt := by
      rw [h.completedAt]
      omega
    rw [h.completed, List.countP_cons, hs.initialVersion u hu']
    simp [hnot]

/-- Every candidate is stored under its own value. -/
theorem entries_eq_items (hs : s.Sound) (k : K) :
    ((s.cc.values k).entries.map fun e => (e.2.value, e.2)) = GoMap.items (s.cc.values k) := by
  refine List.map_congr_left fun e he => ?_
  have hlookup : (s.cc.values k).lookup e.1 = some e.2 :=
    AList.mem_lookup_iff.mpr he
  obtain ⟨c, hc, _, hv, hentry⟩ := (hs.values k e.1 e.2).mp hlookup
  rw [← hentry, hs.entry c hc.1, hv]

theorem candidates_settled (hs : s.Sound) (h : Completes s t w c) (hset : t.Settles c)
    (hvalues : t.cc.values = Function.update s.cc.values w.key
      (AList.singleton w.value c.entry)) (k : K) (v : V) (val : StateValue V) :
    (t.cc.values k).lookup v = some val ↔
      ∃ d, t.Current d ∧ d.key = k ∧ d.value = v ∧ d.entry = val := by
  have hkey : c.key = w.key := by rw [← h.call]
  have hvalue : c.value = w.value := by rw [← h.call]
  simp only [current_settled h hs.toOrdered hset, hvalues, Function.update_apply]
  by_cases hk : k = w.key
  · subst hk
    rw [if_pos rfl, ← AList.insert_empty]
    constructor
    · intro hl
      by_cases hv : v = w.value
      · subst hv
        rw [AList.lookup_insert] at hl
        exact ⟨c, Or.inl rfl, hkey, hvalue, Option.some.inj hl⟩
      · rw [AList.lookup_insert_ne hv] at hl
        cases hl
    · rintro ⟨d, rfl | ⟨hne, _⟩, hdk, hdv, hde⟩
      · rw [← hdv, hvalue, AList.lookup_insert, hde]
      · exact absurd (hdk.trans hkey.symm) hne
  · rw [if_neg hk, hs.values]
    constructor
    · rintro ⟨d, hd, hdk, hrest⟩
      exact ⟨d, Or.inr ⟨by rw [hdk, hkey]; exact hk, hd⟩, hdk, hrest⟩
    · rintro ⟨d, rfl | ⟨_, hd⟩, hdk, hrest⟩
      · exact absurd (hdk.symm.trans hkey) hk
      · exact ⟨d, hd, hdk, hrest⟩

theorem overwritten_settled (hs : s.Sound) (h : Completes s t w c) (hset : t.Settles c)
    (hover : t.cc.overwrittenValues = Function.update s.cc.overwrittenValues w.key
      (GoMap.insertAll (s.cc.overwrittenValues w.key)
        ((s.cc.values w.key).entries.map fun e => (e.2.value, e.2))))
    (k : K) (v : V) (val : StateValue V) :
    (t.cc.overwrittenValues k).lookup v = some val ↔
      ∃ d ∈ t.completed, ¬ t.Current d ∧ d.key = k ∧ d.value = v ∧ d.entry = val := by
  have hkey : c.key = w.key := by rw [← h.call]
  have hne := fun d => ne_new h hs.toOrdered (d := d)
  simp only [current_settled h hs.toOrdered hset, hover, Function.update_apply, h.completed,
    not_or, not_and, List.mem_cons]
  by_cases hk : k = w.key
  · subst hk
    rw [if_pos rfl, entries_eq_items hs, GoMap.lookup_insertAll_iff (GoMap.nodup_items _),
      GoMap.mem_items, GoMap.items_keys, ← AList.mem_keys, hs.values, hs.overwritten,
      mem_values_iff hs]
    constructor
    · rintro (⟨d, hd, hdk, hrest⟩ | ⟨_, d, hd, _, hdk, hrest⟩)
      · have hsame : d.key ≠ c.key → ¬ s.Current d := fun hno => absurd (hdk.trans hkey.symm) hno
        exact ⟨d, Or.inr hd.1, ⟨hne d hd.1, hsame⟩, hdk, hrest⟩
      · have hsame : d.key ≠ c.key → ¬ s.Current d := fun hno => absurd (hdk.trans hkey.symm) hno
        exact ⟨d, Or.inr hd, ⟨hne d hd, hsame⟩, hdk, hrest⟩
    · rintro ⟨d, rfl | hd, ⟨hno, _⟩, hdk, hdv, hde⟩
      · exact absurd rfl hno
      · by_cases hcur : s.Current d
        · exact Or.inl ⟨d, hcur, hdk, hdv, hde⟩
        · refine Or.inr ⟨?_, d, hd, hcur, hdk, hdv, hde⟩
          rintro ⟨d', hd', hdk', hdv'⟩
          obtain rfl := hs.value_inj hd hd'.1 (hdk.trans hdk'.symm) (hdv.trans hdv'.symm)
          exact hcur hd'
  · rw [if_neg hk, hs.overwritten]
    constructor
    · rintro ⟨d, hd, hcur, hdk, hrest⟩
      exact ⟨d, Or.inr hd, ⟨hne d hd, fun _ => hcur⟩, hdk, hrest⟩
    · rintro ⟨d, rfl | hd, ⟨hno, hcur⟩, hdk, hrest⟩
      · exact absurd rfl hno
      · exact ⟨d, hd, hcur (by rw [hdk, hkey]; exact hk), hdk, hrest⟩

theorem candidates_unsettled (hs : s.Sound) (h : Completes s t w c) (hset : ¬ t.Settles c)
    (hvalues : t.cc.values = Function.update s.cc.values w.key
      ((s.cc.values w.key).insert w.value c.entry)) (k : K) (v : V) (val : StateValue V) :
    (t.cc.values k).lookup v = some val ↔
      ∃ d, t.Current d ∧ d.key = k ∧ d.value = v ∧ d.entry = val := by
  have hw : w ∈ s.active := h.active.mem_iff.mp List.mem_cons_self
  have hkey : c.key = w.key := by rw [← h.call]
  have hvalue : c.value = w.value := by rw [← h.call]
  simp only [current_unsettled h hs.toOrdered hset, hvalues, Function.update_apply]
  by_cases hk : k = w.key
  · subst hk
    rw [if_pos rfl]
    by_cases hv : v = w.value
    · subst hv
      rw [AList.lookup_insert, Option.some_inj]
      constructor
      · exact fun hl => ⟨c, Or.inl rfl, hkey, hvalue, hl⟩
      · rintro ⟨d, rfl | hd, hdk, hdv, hde⟩
        · exact hde
        · exact absurd hdv (hs.unrecorded hw hd.1 hdk)
    · rw [AList.lookup_insert_ne hv, hs.values]
      constructor
      · rintro ⟨d, hd, hrest⟩
        exact ⟨d, Or.inr hd, hrest⟩
      · rintro ⟨d, rfl | hd, hdk, hdv, hde⟩
        · exact absurd (hdv.symm.trans hvalue) hv
        · exact ⟨d, hd, hdk, hdv, hde⟩
  · rw [if_neg hk, hs.values]
    constructor
    · rintro ⟨d, hd, hrest⟩
      exact ⟨d, Or.inr hd, hrest⟩
    · rintro ⟨d, rfl | hd, hdk, hrest⟩
      · exact absurd (hdk.symm.trans hkey) hk
      · exact ⟨d, hd, hdk, hrest⟩

theorem overwritten_unsettled (hs : s.Sound) (h : Completes s t w c) (hset : ¬ t.Settles c)
    (hover : t.cc.overwrittenValues = s.cc.overwrittenValues) (k : K) (v : V)
    (val : StateValue V) : (t.cc.overwrittenValues k).lookup v = some val ↔
      ∃ d ∈ t.completed, ¬ t.Current d ∧ d.key = k ∧ d.value = v ∧ d.entry = val := by
  simp only [current_unsettled h hs.toOrdered hset, hover, hs.overwritten, h.completed,
    not_or, List.mem_cons]
  constructor
  · rintro ⟨d, hd, hcur, hrest⟩
    exact ⟨d, Or.inr hd, ⟨ne_new h hs.toOrdered hd, hcur⟩, hrest⟩
  · rintro ⟨d, rfl | hd, ⟨hno, hcur⟩, hrest⟩
    · exact absurd rfl hno
    · exact ⟨d, hd, hcur, hrest⟩

theorem sound_completeWrite (hs : s.Sound) (hc : flags.checkCorrectness = true) {i : Nat}
    {err : Option String} {maybe definitely now : Int} {cc : ConsistencyChecker K V}
    (hw : s.active[i]? = some w)
    (hcc : s.cc.completeWrite flags w.key w.value err w.initialVersion maybe definitely
      now = some cc) :
    Sound { s with
      cc
      active := s.active.eraseIdx i
      completed := w.complete flags err maybe definitely now s.seq :: s.completed
      seq := s.seq + 1 } := by
  have h := completes_of_getElem? hw cc
    (c := w.complete flags err maybe definitely now s.seq) rfl rfl
  have hdetect := isolated_iff_detected hs h
  by_cases hd : err = none ∧ w.initialVersion = s.cc.version w.key ∧ s.cc.rc w.key = 1
  · obtain ⟨hrc, hversion, hvalues, hover⟩ :=
      ConsistencyChecker.completeWrite_overwrites hc hcc hd
    have hset := (⟨List.mem_cons_self, hd.1, hdetect.mpr hd.2⟩ : Settles _ _)
    obtain ⟨hrc', hversion', hinitial⟩ := counts_completes hs h hrc hversion
    exact ⟨ordered_completes hs.toOrdered h rfl, hs.alive,
      (labels_completes h).nodup_iff.mpr hs.apart, hrc', hversion', hinitial,
      List.forall_mem_cons.mpr ⟨rfl, hs.entry⟩, candidates_settled hs h hset hvalues,
      overwritten_settled hs h hset hover⟩
  · obtain ⟨hrc, hversion, hvalues, hover⟩ :=
      ConsistencyChecker.completeWrite_adds hc hcc hd
    have hset : ¬ Settles _ _ := fun hset => hd ⟨hset.2.1, hdetect.mp hset.2.2⟩
    obtain ⟨hrc', hversion', hinitial⟩ := counts_completes hs h hrc hversion
    exact ⟨ordered_completes hs.toOrdered h rfl, hs.alive,
      (labels_completes h).nodup_iff.mpr hs.apart, hrc', hversion', hinitial,
      List.forall_mem_cons.mpr ⟨rfl, hs.entry⟩, candidates_unsettled hs h hset hvalues,
      overwritten_unsettled hs h hset hover⟩

/-- A value used once is never a duplicate. -/
theorem not_panics (hs : s.Sound) (hc : flags.checkCorrectness = true) {i : Nat}
    {err : Option String} {maybe definitely now : Int} (hw : s.active[i]? = some w) :
    s.cc.completeWrite flags w.key w.value err w.initialVersion maybe definitely now ≠
      none := by
  intro hcc
  have hmem := List.mem_of_getElem? hw
  rcases ConsistencyChecker.completeWrite_panics hc hcc with hv | hv
  · obtain ⟨c, hcur, hk, hval⟩ := (mem_values_iff hs).mp hv
    exact hs.unrecorded hmem hcur.1 hk hval
  · obtain ⟨c, hcomp, _, hk, hval⟩ := (mem_overwritten_iff hs).mp hv
    exact hs.unrecorded hmem hcomp hk hval

theorem sound_step (hs : s.Sound) (hc : flags.checkCorrectness = true)
    {e : WriteEvent K V β} (hfresh : s.FreshValue e) (h : s.step flags e = some t) :
    t.Sound := by
  obtain ⟨_, hstep⟩ := step_cases h
  cases hstep with
  | beginWrite => exact sound_beginWrite hs hc hfresh
  | progress hw => exact sound_progress hs hw
  | panic hw hcc => exact absurd hcc (not_panics hs hc hw)
  | completeWrite hw hcc => exact sound_completeWrite hs hc hw hcc

/-- A completed write that is no candidate never becomes one again. -/
theorem current_of_step (hs : s.Sound) (hc : flags.checkCorrectness = true)
    {e : WriteEvent K V β} (h : s.step flags e = some t) (hd : d ∈ s.completed) :
    d ∈ t.completed ∧ (t.Current d → s.Current d) := by
  obtain ⟨_, hstep⟩ := step_cases h
  cases hstep with
  | beginWrite => exact ⟨hd, (current_beginWrite hs.toOrdered).mp⟩
  | progress hw => exact ⟨hd, (current_progress hw _).mp⟩
  | panic hw hcc => exact absurd hcc (not_panics hs hc hw)
  | completeWrite hw hcc =>
      refine ⟨List.mem_cons_of_mem _ hd, ?_⟩
      exact current_of_completes (completes_of_getElem? hw _ rfl rfl) hs.toOrdered hd

end Steps

/-- The counts, the candidates and the overwritten values of a key, by its writes. -/
def Exact (s : Ledger K V β) (k : K) : Prop :=
  s.cc.rc k = s.active.countP (·.key = k) ∧
  s.cc.version k = s.completed.countP (·.key = k) ∧
  ((∃ w, s.Last k w ∧ ∀ v, v ∈ s.cc.values k ↔ v = w.value ∨
      ∃ c ∈ s.completed, c.key = k ∧ w.completedAt < c.completedAt ∧ c.value = v) ∨
    (∀ w, ¬ s.Last k w) ∧ ∀ v, v ∈ s.cc.values k ↔
      ∃ c ∈ s.completed, c.key = k ∧ c.value = v) ∧
  ∀ v, v ∈ s.cc.overwrittenValues k ↔
    (∃ c ∈ s.completed, c.key = k ∧ c.value = v) ∧ v ∉ s.cc.values k

section Exactness

variable {flags : Flags} {k : K}

theorem values_last (hs : s.Sound) (hd : s.Last k d) (v : V) : v ∈ s.cc.values k ↔
    v = d.value ∨
      ∃ c ∈ s.completed, c.key = k ∧ d.completedAt < c.completedAt ∧ c.value = v := by
  rw [mem_values_iff hs]
  constructor
  · rintro ⟨c, hc, hk, rfl⟩
    rcases (current_iff_last hs.toOrdered hd hk).mp hc with rfl | ⟨hmem, hlt⟩
    · exact Or.inl rfl
    · exact Or.inr ⟨c, hmem, hk, hlt, rfl⟩
  · rintro (rfl | ⟨c, hmem, hk, hlt, rfl⟩)
    · exact ⟨d, (current_iff_last hs.toOrdered hd hd.2.1).mpr (Or.inl rfl), hd.2.1, rfl⟩
    · exact ⟨c, (current_iff_last hs.toOrdered hd hk).mpr (Or.inr ⟨hmem, hlt⟩), hk, rfl⟩

theorem values_no_last (hs : s.Sound) (hno : ∀ d, ¬ s.Last k d) (v : V) :
    v ∈ s.cc.values k ↔ ∃ c ∈ s.completed, c.key = k ∧ c.value = v := by
  rw [mem_values_iff hs]
  constructor
  · rintro ⟨c, hc, hk, hv⟩
    exact ⟨c, hc.1, hk, hv⟩
  · rintro ⟨c, hc, hk, hv⟩
    refine ⟨c, ⟨hc, fun d hd hdk => ?_⟩, hk, hv⟩
    obtain ⟨e, he⟩ := exists_last hs.toOrdered hd (hdk.trans hk)
    exact absurd he (hno e)

theorem overwritten_exact (hs : s.Sound) (v : V) : v ∈ s.cc.overwrittenValues k ↔
    (∃ c ∈ s.completed, c.key = k ∧ c.value = v) ∧ v ∉ s.cc.values k := by
  rw [mem_overwritten_iff hs, mem_values_iff hs]
  constructor
  · rintro ⟨c, hc, hno, hk, rfl⟩
    refine ⟨⟨c, hc, hk, rfl⟩, ?_⟩
    rintro ⟨d, hd, hdk, hdv⟩
    obtain rfl := hs.value_inj hd.1 hc (hdk.trans hk.symm) hdv
    exact hno hd
  · rintro ⟨⟨c, hc, hk, hv⟩, hno⟩
    exact ⟨c, hc, fun hcur => hno ⟨c, hcur, hk, hv⟩, hk, hv⟩

theorem Sound.exact (hs : s.Sound) (k : K) : s.Exact k := by
  refine ⟨hs.rc k, hs.version k, ?_, overwritten_exact hs⟩
  by_cases hlast : ∃ d, s.Last k d
  · obtain ⟨d, hd⟩ := hlast
    exact Or.inl ⟨d, hd, values_last hs hd⟩
  · have hno := not_exists.mp hlast
    exact Or.inr ⟨hno, values_no_last hs hno⟩

/-- The checker reports a read that returns an overwritten value. -/
theorem checkRead_overwritten (hs : s.Sound) {v : V} (hv : v ∈ s.cc.overwrittenValues k)
    (startTime now : Int) : s.cc.checkRead flags k v true startTime now ≠ none := by
  have hno := AList.lookup_eq_none.mpr ((overwritten_exact hs v).mp hv).2
  obtain ⟨val, hval⟩ := Option.isSome_iff_exists.mp (AList.lookup_isSome.mpr hv)
  simp [ConsistencyChecker.checkRead, hno, hval]

theorem overwritten_step (hs : s.Sound) (hc : flags.checkCorrectness = true)
    {e : WriteEvent K V β} (hfresh : s.FreshValue e) (h : s.step flags e = some t) {v : V}
    (hv : v ∈ s.cc.overwrittenValues k) : v ∈ t.cc.overwrittenValues k := by
  obtain ⟨c, hmem, hno, hk, hval⟩ := (mem_overwritten_iff hs).mp hv
  obtain ⟨hmem', hcur⟩ := current_of_step hs hc h hmem
  exact (mem_overwritten_iff (sound_step hs hc hfresh h)).mpr
    ⟨c, hmem', fun h' => hno (hcur h'), hk, hval⟩

end Exactness

end Ledger

/-- In every reachable state the counts, the candidates and the overwritten values of
every key are exact, and a value overwritten at any earlier point is not accepted. -/
theorem candidates_exact [DecidableEq K] [DecidableEq V] {flags : Flags}
    (hc : flags.checkCorrectness = true) {t : Ledger K V β} {past : List (Ledger K V β)}
    (run : (writes K V β flags).Run Ledger.FreshValue (t :: past)) (k : K) :
    t.panicked = false ∧ t.Exact k ∧
      ∀ s ∈ t :: past, ∀ v ∈ s.cc.overwrittenValues k, v ∉ t.cc.values k ∧
        ∀ startTime now, t.cc.checkRead flags k v true startTime now ≠ none := by
  have sound := Machine.Run.invariant (I := Ledger.Sound) Ledger.sound_init
    (fun s e u hs he hu => Ledger.sound_step hs hc he hu) run
  have ht := sound t List.mem_cons_self
  refine ⟨ht.alive, ht.exact k, ?_⟩
  have kept := History.related (R := fun s u : Ledger K V β => s.Sound → u.Sound ∧
    ∀ v ∈ s.cc.overwrittenValues k, v ∈ u.cc.overwrittenValues k) ?_ ?_ ?_ run
  · intro s hs v hv
    have hv' := (kept s hs (sound s hs)).2 v hv
    exact ⟨((Ledger.overwritten_exact ht v).mp hv').2, Ledger.checkRead_overwritten ht hv'⟩
  · exact fun s hs => ⟨hs, fun v hv => hv⟩
  · intro s u w hsu huw hs
    obtain ⟨hu, hsub⟩ := hsu hs
    obtain ⟨hw, hsub'⟩ := huw hu
    exact ⟨hw, fun v hv => hsub' v (hsub v hv)⟩
  · intro s h u hn hs
    obtain ⟨e, he, hstep⟩ := (writes K V β flags).next_cons.mp hn
    exact ⟨Ledger.sound_step hs hc he hstep,
      fun v hv => Ledger.overwritten_step hs hc he hstep hv⟩

/-- Two writes overlap and both values are candidates; a third write that is alone
overwrites them. -/
theorem candidates_exact_third_write : ∃ t past,
    (writes Nat Nat Unit {}).Run Ledger.FreshValue (t :: past) ∧
    (10 ∈ t.cc.overwrittenValues 0 ∧ 20 ∈ t.cc.overwrittenValues 0 ∧ 30 ∈ t.cc.values 0) ∧
    t.panicked = false ∧ t.Exact 0 := by
  obtain ⟨h, run, hmem⟩ :=
    (writes Nat Nat Unit {}).exists_run_of_replay Ledger.FreshValue
      [.beginWrite 0 10 (), .beginWrite 0 20 (), .completeWrite 0 none 5 6 1,
        .completeWrite 0 none 5 6 2, .beginWrite 0 30 (), .completeWrite 0 none 8 9 3]
      (fun h => ∀ t ∈ h.head?, 10 ∈ t.cc.overwrittenValues 0 ∧
        20 ∈ t.cc.overwrittenValues 0 ∧ 30 ∈ t.cc.values 0)
      (by decide +kernel)
  obtain ⟨t, past, rfl⟩ := run.exists_head
  obtain ⟨halive, hexact, _⟩ := candidates_exact rfl run 0
  exact ⟨t, past, run, hmem t rfl, halive, hexact⟩

end CheckerLab
