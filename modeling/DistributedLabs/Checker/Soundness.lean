import DistributedLabs.Checker.Candidates
import DistributedLabs.Checker.Tester

/-!
The checker against the ideal store. The value in the store was put there by a write
that is in progress or that is still a candidate, because an isolated write is the last
one to take effect in its interval. A read that the checker looks at overlaps no write,
so what it found is a candidate and what it did not find has expired, unless no write
of the key ever took effect. The checker then still expects one of the failed writes.
-/

namespace CheckerLab

variable {K V : Type}

/-- The clock readings of a write in progress. -/
structure SetCall.Timed (flags : Flags) (now : Int) (x : SetCall) : Prop where
  start : x.startTime ≤ now
  effect : ∀ t, x.effect = some t → x.startTime ≤ t ∧ t ≤ now
  result : ∀ r, x.result = some (none, r) → ∀ t, x.effect = some t →
    t ≤ r + flags.ttlCheckBuffer

/-- What a completed write recorded encloses the instant at which it expires. -/
structure Completed.Timed (c : Completed K V SetCall) : Prop where
  recorded : c.entry.maybeExpiredBy = c.client.startTime + c.client.ttl
  maybe : ∀ t, c.client.effect = some t → c.entry.maybeExpiredBy ≤ t + c.client.ttl
  definitely : c.entry.err = none → ∀ t, c.client.effect = some t →
    t + c.client.ttl ≤ c.entry.definitelyExpiredBy

/-- A write whose value may be in the store. -/
def Ledger.Writer (l : Ledger K V SetCall) (u : Call K V SetCall) : Prop :=
  u ∈ l.active ∨ ∃ c, l.Current c ∧ c.toCall = u

/-- The write that a stored value comes from. -/
def Stored.From (e : Stored V) (u : Call K V SetCall) : Prop :=
  u.value = e.value ∧ u.client.ttl = e.ttl ∧ u.client.effect = some e.since

namespace Tester

/-- The store against the writes. A write that took effect and whose value is gone
was not isolated. -/
structure Written (s : Tester K V) : Prop where
  writer : ∀ k e, s.store k = some e → ∃ u, s.ledger.Writer u ∧ u.key = k ∧ e.From u
  active : ∀ w ∈ s.ledger.active, w.client.effect ≠ none → s.store w.key ≠ none
  completed : ∀ c ∈ s.ledger.completed, c.client.effect ≠ none → s.store c.key ≠ none
  latest : ∀ w ∈ s.ledger.active, w.client.effect ≠ none → ∀ e, s.store w.key = some e →
    (∃ u ∈ s.ledger.active, u.key = w.key ∧ u.value = e.value) ∨
      ∃ c ∈ s.ledger.completed, c.key = w.key ∧ w.begunAt < c.completedAt

/-- What a read saw, in terms of the candidates. -/
def Explained (l : Ledger K V SetCall) (r : ReadCall K V) : Option V → Int → Prop
  | some v, _ => ∃ c, l.Current c ∧ c.key = r.key ∧ c.value = v ∧
      (c.entry.err = none → r.startTime ≤ c.entry.definitelyExpiredBy)
  | none, seenAt => (∀ c ∈ l.completed, c.key = r.key → c.client.effect = none) ∨
      ∃ c, l.Current c ∧ c.key = r.key ∧ c.entry.maybeExpiredBy ≤ seenAt

/-- A read that overlaps no write is explained. -/
structure ReadOk (now : Int) (l : Ledger K V SetCall) (r : ReadCall K V) : Prop where
  start : r.startTime ≤ now
  version : r.initialVersion ≤ l.cc.version r.key
  seen : r.initialVersion = l.cc.version r.key → l.cc.rc r.key = 0 →
    ∀ value seenAt, r.seen = some (value, seenAt) → Explained l r value seenAt

theorem explained_mono {l l' : Ledger K V SetCall} {r : ReadCall K V}
    (hcur : ∀ c, c.key = r.key → l.Current c → l'.Current c)
    (hcomp : ∀ c ∈ l'.completed, c.key = r.key → c ∈ l.completed) {value : Option V}
    {seenAt : Int} (h : Explained l r value seenAt) : Explained l' r value seenAt := by
  cases value with
  | some v =>
      obtain ⟨c, hc, hk, hrest⟩ := h
      exact ⟨c, hcur c hk hc, hk, hrest⟩
  | none =>
      rcases h with h | ⟨c, hc, hk, hrest⟩
      · exact Or.inl fun c hc hk => h c (hcomp c hc hk) hk
      · exact Or.inr ⟨c, hcur c hk hc, hk, hrest⟩

section Writes

variable {s : Tester K V} {l : Ledger K V SetCall} {w : Call K V SetCall}

/-- A write that begins has not taken effect. -/
theorem written_begin (h : s.Written) (hact : l.active = s.ledger.active ++ [w])
    (hcomp : l.completed = s.ledger.completed)
    (hcur : ∀ c, l.Current c ↔ s.ledger.Current c) (hw : w.client.effect = none) :
    Written { s with ledger := l } := by
  constructor
  · intro k e he
    obtain ⟨u, hu, hrest⟩ := h.writer k e he
    refine ⟨u, ?_, hrest⟩
    rcases hu with hu | ⟨c, hc, hcu⟩
    · exact Or.inl (by simp [hact, hu])
    · exact Or.inr ⟨c, (hcur c).mpr hc, hcu⟩
  · simp only [hact, List.forall_mem_append, List.forall_mem_singleton]
    exact ⟨h.active, fun hne => absurd hw hne⟩
  · simpa only [hcomp] using h.completed
  · simp only [hact, hcomp, List.forall_mem_append, List.forall_mem_singleton]
    refine ⟨?_, fun hne => absurd hw hne⟩
    intro u hu hne e he
    rcases h.latest u hu hne e he with ⟨v, hv, hrest⟩ | hover
    · exact Or.inl ⟨v, by simp [hv], hrest⟩
    · exact Or.inr hover

/-- A client that learns the result of its write changes nothing in the store. -/
theorem written_return (h : s.Written) {i : Nat} {x : SetCall}
    (hw : s.ledger.active[i]? = some w) (httl : x.ttl = w.client.ttl)
    (heffect : x.effect = w.client.effect)
    (hact : l.active = s.ledger.active.set i { w with client := x })
    (hcomp : l.completed = s.ledger.completed)
    (hcur : ∀ c, l.Current c ↔ s.ledger.Current c) : Written { s with ledger := l } := by
  constructor
  · intro k e he
    obtain ⟨u, hu | ⟨c, hc, hcu⟩, hrest⟩ := h.writer k e he
    · have hmove := (Phases.exists_move (P := fun u => u.key = k ∧ e.From u)
        { w with client := x } hw (by simp [Stored.From, httl, heffect])).mpr ⟨u, hu, hrest⟩
      obtain ⟨u', hu', hrest'⟩ := hmove
      exact ⟨u', Or.inl (by rwa [hact]), hrest'⟩
    · exact ⟨u, Or.inr ⟨c, (hcur c).mpr hc, hcu⟩, hrest⟩
  · rw [hact]
    refine (Phases.forall_move { w with client := x } hw ?_).mpr h.active
    simp [heffect]
  · simpa only [hcomp] using h.completed
  · simp only [hact, hcomp]
    refine (Phases.forall_move { w with client := x } hw ?_).mpr ?_
    · simp [heffect]
    · intro u hu hne e he
      rcases h.latest u hu hne e he with hu' | hover
      · exact Or.inl ((Phases.exists_move { w with client := x } hw rfl).mpr hu')
      · exact Or.inr hover

/-- The write that takes effect is the one the store shows. -/
theorem written_effect [DecidableEq K] (h : s.Written) {i : Nat}
    (hw : s.ledger.active[i]? = some w)
    (hact : l.active = s.ledger.active.set i
      { w with client := { w.client with effect := some s.now } })
    (hcomp : l.completed = s.ledger.completed)
    (hcur : ∀ c, l.Current c ↔ s.ledger.Current c) :
    Written { s with
      ledger := l
      store := Function.update s.store w.key (some ⟨w.value, s.now, w.client.ttl⟩) } := by
  have hmem := Phases.mem_move
    ({ w with client := { w.client with effect := some s.now } } : Call K V SetCall) hw
  rw [← hact] at hmem
  constructor
  · intro k e he
    simp only [Function.update_apply] at he
    split at he
    · obtain rfl := Option.some.inj he
      exact ⟨_, Or.inl hmem, by simp [*], rfl, rfl, rfl⟩
    · rename_i hk
      obtain ⟨u, hu | ⟨c, hc, hcu⟩, hrest⟩ := h.writer k e he
      · have hmove := (Phases.exists_move (P := fun u => u.key = k ∧ e.From u)
          { w with client := { w.client with effect := some s.now } } hw
          (by simp [Ne.symm hk])).mpr ⟨u, hu, hrest⟩
        obtain ⟨u', hu', hrest'⟩ := hmove
        exact ⟨u', Or.inl (by rwa [hact]), hrest'⟩
      · exact ⟨u, Or.inr ⟨c, (hcur c).mpr hc, hcu⟩, hrest⟩
  · intro u hu hne
    simp only [Function.update_apply]
    split
    · simp
    · rename_i hk
      rw [hact] at hu
      rcases List.mem_or_eq_of_mem_set hu with hu | rfl
      · exact h.active u hu hne
      · exact absurd rfl hk
  · intro c hc hne
    simp only [Function.update_apply]
    split
    · simp
    · exact h.completed c (hcomp ▸ hc) hne
  · intro u hu hne e he
    simp only [Function.update_apply] at he
    split at he
    · rename_i hk
      obtain rfl := Option.some.inj he
      exact Or.inl ⟨_, hmem, hk.symm, rfl⟩
    · rename_i hk
      simp only [hact] at hu ⊢
      rcases List.mem_or_eq_of_mem_set hu with hu | rfl
      · rcases h.latest u hu hne e he with hu' | hover
        · exact Or.inl ((Phases.exists_move
            { w with client := { w.client with effect := some s.now } } hw rfl).mpr hu')
        · exact Or.inr (by simpa only [hcomp] using hover)
      · exact absurd rfl hk

section Completion

variable [DecidableEq K] [DecidableEq V] {c : Completed K V SetCall}

/-- At the completion of an isolated write the store shows its value. -/
theorem isolated_latest (h : s.Written) (hs : s.ledger.Sound)
    (hc : Ledger.Completes s.ledger l w c) (hiso : l.Isolated c)
    (hne : w.client.effect ≠ none) {e : Stored V} (he : s.store w.key = some e) :
    w.value = e.value := by
  obtain ⟨halone, hbefore⟩ := (Ledger.isolated_completes_new hc hs.toOrdered).mp hiso
  have hw : w ∈ s.ledger.active := hc.active.mem_iff.mp List.mem_cons_self
  rcases h.latest w hw hne e he with ⟨u, hu, hk, hv⟩ | ⟨d, hd, hk, hlt⟩
  · rcases List.mem_cons.mp (hc.active.mem_iff.mpr hu) with rfl | hu
    · exact hv
    · exact absurd hk (halone u hu)
  · exact absurd (hbefore d hd hk) (Nat.lt_asymm hlt)

theorem written_completes (h : s.Written) (hs : s.ledger.Sound)
    (hc : Ledger.Completes s.ledger l w c)
    (hok : c.err = none → w.client.effect ≠ none) : Written { s with ledger := l } := by
  have hw : w ∈ s.ledger.active := hc.active.mem_iff.mp List.mem_cons_self
  have hkey : c.key = w.key := by rw [← hc.call]
  have hsplit : ∀ u ∈ s.ledger.active, u = w ∨ u ∈ l.active :=
    fun u hu => List.mem_cons.mp (hc.active.mem_iff.mpr hu)
  constructor
  · intro k e he
    obtain ⟨u, hu | ⟨d, hd, hdu⟩, hk, hfrom⟩ := h.writer k e he
    · refine ⟨u, ?_, hk, hfrom⟩
      rcases hsplit u hu with rfl | hu
      · exact Or.inr ⟨c, Ledger.current_new hc hs.toOrdered, hc.call⟩
      · exact Or.inl hu
    · refine ⟨u, Or.inr ⟨d, ?_, hdu⟩, hk, hfrom⟩
      by_cases hset : l.Settles c
      · refine Ledger.current_other_key hc hs.toOrdered ?_ hd
        intro hdk
        have hkw : k = w.key := by rw [← hk, ← hdu, hdk, hkey]
        have hv := isolated_latest h hs hc hset.2.2 (hok hset.2.1) (hkw ▸ he)
        exact hs.unrecorded hw hd.1 (hdk.trans hkey) (by rw [hv, ← hfrom.1, ← hdu])
      · exact (Ledger.current_unsettled hc hs.toOrdered hset).mpr (Or.inr hd)
  · intro u hu
    exact h.active u (hc.active.mem_iff.mp (List.mem_cons_of_mem _ hu))
  · simp only [hc.completed, List.forall_mem_cons]
    refine ⟨?_, h.completed⟩
    have hact := h.active w hw
    rwa [← hc.call] at hact
  · intro u hu hne e he
    have hu' := hc.active.mem_iff.mp (List.mem_cons_of_mem _ hu)
    simp only [hc.completed, List.mem_cons, exists_eq_or_imp]
    rcases h.latest u hu' hne e he with ⟨v, hv, hk, hval⟩ | hover
    · rcases hsplit v hv with rfl | hv
      · refine Or.inr (Or.inl ⟨hkey.trans hk, ?_⟩)
        rw [hc.completedAt]
        exact hs.active u hu'
      · exact Or.inl ⟨v, hv, hk, hval⟩
    · exact Or.inr (Or.inr hover)

end Completion

end Writes

section Reads

variable {now : Int} {l l' : Ledger K V SetCall} {r : ReadCall K V}
  {w : Call K V SetCall} {c : Completed K V SetCall}

/-- Between two states without a write in progress and with the same version nothing
has changed for a key. -/
theorem readOk_mono (h : ReadOk now l r)
    (hversion : l.cc.version r.key ≤ l'.cc.version r.key)
    (hsame : l'.cc.version r.key = l.cc.version r.key → l'.cc.rc r.key = 0 →
      l.cc.rc r.key = 0 ∧ (∀ c, c.key = r.key → l.Current c → l'.Current c) ∧
        ∀ c ∈ l'.completed, c.key = r.key → c ∈ l.completed) : ReadOk now l' r := by
  refine ⟨h.start, h.version.trans hversion, ?_⟩
  intro hv hrc value seenAt hseen
  have hle := h.version
  have heq : l'.cc.version r.key = l.cc.version r.key := by omega
  obtain ⟨hrc', hcur, hcomp⟩ := hsame heq hrc
  exact explained_mono hcur hcomp (h.seen (by omega) hrc' value seenAt hseen)

variable [DecidableEq K] [DecidableEq V]

theorem readOk_begin (h : ReadOk now l r) (hs : l.Sound) (hs' : l'.Sound)
    (hact : l'.active = l.active ++ [w]) (hcomp : l'.completed = l.completed)
    (hcur : ∀ c, l'.Current c ↔ l.Current c) : ReadOk now l' r := by
  refine readOk_mono h (by rw [hs.version, hs'.version, hcomp]) ?_
  intro _ hrc
  rw [hs'.rc_eq_zero, hact, List.forall_mem_append] at hrc
  exact ⟨hs.rc_eq_zero.mpr hrc.1, fun c _ => (hcur c).mpr, fun c hc _ => hcomp ▸ hc⟩

theorem readOk_progress (h : ReadOk now l r) (hs : l.Sound) (hs' : l'.Sound) {i : Nat}
    {x : SetCall} (hw : l.active[i]? = some w)
    (hact : l'.active = l.active.set i { w with client := x })
    (hcomp : l'.completed = l.completed) (hcur : ∀ c, l'.Current c ↔ l.Current c) :
    ReadOk now l' r := by
  refine readOk_mono h (by rw [hs.version, hs'.version, hcomp]) ?_
  intro _ hrc
  rw [hs'.rc_eq_zero, hact] at hrc
  have hidle := (Phases.forall_move { w with client := x } hw rfl).mp hrc
  exact ⟨hs.rc_eq_zero.mpr hidle, fun c _ => (hcur c).mpr, fun c hc _ => hcomp ▸ hc⟩

theorem readOk_completes (h : ReadOk now l r) (hs : l.Sound) (hs' : l'.Sound)
    (hc : Ledger.Completes l l' w c) : ReadOk now l' r := by
  have hkey : c.key = w.key := by rw [← hc.call]
  have hcount : l'.cc.version r.key =
      l.cc.version r.key + if c.key = r.key then 1 else 0 := by
    rw [hs.version, hs'.version, hc.completed, List.countP_cons]
    split <;> simp_all
  refine readOk_mono h (by rw [hcount]; split <;> omega) ?_
  intro hv hrc
  have hne : c.key ≠ r.key := by
    intro hk
    rw [if_pos hk] at hcount
    omega
  refine ⟨?_, ?_, ?_⟩
  · rw [hs.rc_eq_zero]
    intro u hu
    rcases List.mem_cons.mp (hc.active.mem_iff.mpr hu) with rfl | hu
    · exact hkey ▸ hne
    · exact hs'.rc_eq_zero.mp hrc u hu
  · exact fun d hk => Ledger.current_other_key hc hs.toOrdered (hk ▸ Ne.symm hne)
  · intro d hd hk
    rw [hc.completed] at hd
    rcases List.mem_cons.mp hd with rfl | hd
    · exact absurd hk hne
    · exact hd

/-- A read that takes effect while no write of its key is in progress. -/
theorem explained_get {s : Tester K V} (h : s.Written) (hs : s.ledger.Sound)
    (htimed : ∀ c ∈ s.ledger.completed, c.Timed) (hstart : r.startTime ≤ s.now)
    (hrc : s.ledger.cc.rc r.key = 0) :
    Explained s.ledger r ((s.store r.key).bind (·.visible s.now)) s.now := by
  cases he : s.store r.key with
  | none =>
      refine Or.inl fun c hc hk => ?_
      by_contra hne
      exact h.completed c hc hne (hk ▸ he)
  | some e =>
      obtain ⟨u, hu, hk, hv, httl, heffect⟩ := h.writer r.key e he
      obtain ⟨c, hc, rfl⟩ := hu.resolve_left fun hu => hs.rc_eq_zero.mp hrc u hu hk
      obtain ⟨_, hmaybe, hdefinitely⟩ := htimed c hc.1
      simp only [Option.bind_some, Stored.visible]
      have hle := hmaybe _ heffect
      split
      · refine ⟨c, hc, hk, hv, fun herr => ?_⟩
        have hge := hdefinitely herr _ heffect
        omega
      · rename_i hnot
        exact Or.inr ⟨c, hc, hk, by omega⟩

theorem checkRead_found {flags : Flags} (hs : l.Sound) {v : V} {seenAt : Int}
    (h : Explained l r (some v) seenAt) :
    l.cc.checkRead flags r.key v true r.startTime now = none := by
  obtain ⟨c, hc, hk, hv, htime⟩ := h
  have hlookup := (hs.values r.key v c.entry).mpr ⟨c, hc, hk, hv, rfl⟩
  simp only [ConsistencyChecker.checkRead, Bool.true_eq_false, if_false, hlookup]
  rw [if_neg]
  rintro ⟨_, herr, hlt⟩
  have hle := htime herr
  omega

/-- A read that found nothing passes if there is no candidate. -/
theorem checkRead_unwritten {flags : Flags} (hs : l.Sound) {v : V}
    (h : ∀ c ∈ l.completed, c.key ≠ r.key) :
    l.cc.checkRead flags r.key v false r.startTime now = none := by
  simp only [ConsistencyChecker.checkRead, if_true]
  refine if_pos (Or.inl ?_)
  rw [List.length_map, List.length_eq_zero_iff, List.eq_nil_iff_forall_not_mem]
  intro e he
  obtain ⟨c, hc, hk, _⟩ := (hs.values r.key e.1 e.2).mp (AList.mem_lookup_iff.mpr he)
  exact h c hc.1 hk

/-- A read that found nothing passes if a candidate has expired by the time of the
check. -/
theorem checkRead_notFound {flags : Flags} (hs : l.Sound) {v : V} (hc : l.Current c)
    (hk : c.key = r.key) (hlt : c.entry.maybeExpiredBy < now) :
    l.cc.checkRead flags r.key v false r.startTime now = none := by
  have hlookup := (hs.values r.key c.value c.entry).mpr ⟨c, hc, hk, rfl, rfl⟩
  simp only [ConsistencyChecker.checkRead, if_true]
  refine if_pos (Or.inr ⟨c.entry, List.mem_map.mpr ⟨⟨c.value, c.entry⟩, ?_, rfl⟩, hlt⟩)
  exact AList.mem_lookup_iff.mp hlookup

end Reads

/-- The read found nothing and overlapped no write. -/
def Missed (s : Tester K V) (r : ReadCall K V) (seen : Option V × Int) : Prop :=
  seen.1 = none ∧ r.initialVersion = s.ledger.cc.version r.key ∧ s.ledger.cc.rc r.key = 0

/-- No write of the key has completed, or one that has completed took effect and the read did
so before this instant, or the TTL of a write that the read might have returned has passed
since that write began. -/
def Excused (s : Tester K V) (r : ReadCall K V) (seen : Option V × Int) : Prop :=
  (∀ c ∈ s.ledger.completed, c.key ≠ r.key) ∨
    (seen.2 < s.now ∧ ∃ c ∈ s.ledger.completed, c.key = r.key ∧ c.client.effect ≠ none) ∨
    ∃ c ∈ s.ledger.completed, c.key = r.key ∧ s.ledger.Current c ∧
      c.client.startTime + c.client.ttl < s.now

/-- A set that has returned nil takes effect within the buffer of its return. When the
checker looks at a read that found nothing, there is an excuse for it. -/
def CheckSafe (s : Tester K V) (flags : Flags) : TestEvent K V → Prop
  | .setEffect i => ∀ w ∈ s.ledger.active[i]?, ∀ r ∈ w.client.result, r.1 = none →
      s.now ≤ r.2 + flags.ttlCheckBuffer
  | .checkRead j => ∀ r ∈ s.reads[j]?, ∀ seen ∈ r.seen, s.Missed r seen → s.Excused r seen
  | _ => True

section Decidable

variable [DecidableEq K] [DecidableEq V] (s : Tester K V)

instance (r : ReadCall K V) (seen : Option V × Int) : Decidable (s.Missed r seen) :=
  inferInstanceAs (Decidable (_ ∧ _ ∧ _))

instance (r : ReadCall K V) (seen : Option V × Int) : Decidable (s.Excused r seen) :=
  inferInstanceAs (Decidable (_ ∨ _ ∨ _))

instance (flags : Flags) (e : TestEvent K V) : Decidable (s.CheckSafe flags e) :=
  match e with
  | .setEffect i => Option.decidableForallMem s.ledger.active[i]?
  | .checkRead j => Option.decidableForallMem s.reads[j]?
  | .tick _ | .beginWrite _ _ _ _ | .setReturn _ _ | .completeWrite _ | .beginRead _ _
  | .getEffect _ => isTrue trivial

end Decidable

/-- The checker, the writes, the store and the reads agree, and nothing was reported. -/
structure Consistent [DecidableEq K] [DecidableEq V] (flags : Flags) (s : Tester K V) :
    Prop where
  sound : s.ledger.Sound
  active : ∀ w ∈ s.ledger.active, w.client.Timed flags s.now
  completed : ∀ c ∈ s.ledger.completed, c.Timed
  written : s.Written
  reads : ∀ r ∈ s.reads, ReadOk s.now s.ledger r
  reports : s.reports = []

section Steps

variable [DecidableEq K] [DecidableEq V] {flags : Flags} {s : Tester K V}
  {ledger : Ledger K V SetCall}

theorem consistent_tick (h : Consistent flags s) (d : Nat) :
    Consistent flags { s with now := s.now + d } := by
  refine ⟨h.sound, ?_, h.completed, ⟨h.written.writer, h.written.active,
    h.written.completed, h.written.latest⟩, ?_, h.reports⟩
  · intro w hw
    obtain ⟨hstart, heffect, hresult⟩ := h.active w hw
    refine ⟨by dsimp only; omega, fun t ht => ?_, hresult⟩
    have hle := heffect t ht
    exact ⟨hle.1, by dsimp only; omega⟩
  · intro r hr
    obtain ⟨hstart, hversion, hseen⟩ := h.reads r hr
    exact ⟨by dsimp only; omega, hversion, hseen⟩

theorem consistent_beginWrite (h : Consistent flags s) (hc : flags.checkCorrectness = true)
    {key : K} {value : V} {ttl startTime : Int} (ht : startTime ≤ s.now)
    (hfresh : s.ledger.FreshValue (.beginWrite key value ⟨ttl, startTime, none, none⟩))
    (hl : s.ledger.step flags (.beginWrite key value ⟨ttl, startTime, none, none⟩) =
      some ledger) : Consistent flags { s with ledger } := by
  have hsound := Ledger.sound_step h.sound hc hfresh hl
  obtain ⟨_, hstep⟩ := Ledger.step_cases hl
  cases hstep with
  | beginWrite =>
      have hcur : ∀ c, (s.ledger.beginWrite flags key value
          ⟨ttl, startTime, none, none⟩).Current c ↔ s.ledger.Current c :=
        fun c => Ledger.current_beginWrite h.sound.toOrdered
      refine ⟨hsound, ?_, h.completed, written_begin h.written rfl rfl hcur rfl, ?_, h.reports⟩
      · simp only [Ledger.beginWrite, List.forall_mem_append, List.forall_mem_singleton]
        exact ⟨h.active, ht, fun t ht => absurd ht (by simp), fun r hr => absurd hr (by simp)⟩
      · exact fun r hr => readOk_begin (h.reads r hr) h.sound hsound rfl rfl hcur

/-- A write moves on, with times that are still right and a store that still holds what was
written. -/
theorem consistent_progress (h : Consistent flags s) (hc : flags.checkCorrectness = true)
    {i : Nat} {w : Call K V SetCall} {x : SetCall} {store : K → Option (Stored V)}
    (hw : s.ledger.active[i]? = some w)
    (hl : s.ledger.step flags (.progress i x) = some ledger) (htimed : x.Timed flags s.now)
    (hwritten : ∀ l : Ledger K V SetCall,
      l.active = s.ledger.active.set i { w with client := x } →
      l.completed = s.ledger.completed → (∀ c, l.Current c ↔ s.ledger.Current c) →
      Written { s with ledger := l, store }) :
    Consistent flags { s with ledger, store } := by
  have hsound := Ledger.sound_step h.sound hc (by trivial) hl
  obtain ⟨_, hstep⟩ := Ledger.step_cases hl
  cases hstep with
  | progress hw' =>
      obtain rfl := Option.some.inj (hw.symm.trans hw')
      have hcur := fun c => Ledger.current_progress (c := c) hw x
      refine ⟨hsound, ?_, h.completed, hwritten _ rfl rfl hcur, ?_, h.reports⟩
      · intro u hu
        rcases List.mem_or_eq_of_mem_set hu with hu | rfl
        · exact h.active u hu
        · exact htimed
      · exact fun r hr => readOk_progress (h.reads r hr) h.sound hsound hw rfl rfl hcur

theorem consistent_setReturn (h : Consistent flags s) (hc : flags.checkCorrectness = true)
    (hbuf : 0 ≤ flags.ttlCheckBuffer) {i : Nat} {err : Option String}
    {w : Call K V SetCall} (hw : s.ledger.active[i]? = some w)
    (hl : s.ledger.step flags (.progress i { w.client with result := some (err, s.now) }) =
      some ledger) : Consistent flags { s with ledger } := by
  obtain ⟨hstart, heffect, _⟩ := h.active w (List.mem_of_getElem? hw)
  refine consistent_progress h hc hw hl ⟨hstart, heffect, fun r hr t ht => ?_⟩ ?_
  · obtain ⟨_, rfl⟩ := Prod.mk.inj (Option.some.inj hr)
    have hle := heffect t ht
    omega
  · intro l hact hcomp hcur
    exact written_return (x := { w.client with result := some (err, s.now) }) h.written hw rfl
      rfl hact hcomp hcur

theorem consistent_setEffect (h : Consistent flags s) (hc : flags.checkCorrectness = true)
    {i : Nat} {w : Call K V SetCall} (hw : s.ledger.active[i]? = some w)
    (hsafe : s.CheckSafe flags (.setEffect i))
    (hl : s.ledger.step flags (.progress i { w.client with effect := some s.now }) =
      some ledger) :
    Consistent flags { s with
      ledger
      store := Function.update s.store w.key (some ⟨w.value, s.now, w.client.ttl⟩) } := by
  have hstart := (h.active w (List.mem_of_getElem? hw)).start
  refine consistent_progress h hc hw hl ⟨hstart, fun t ht => ?_, fun r hr t ht => ?_⟩ ?_
  · obtain rfl := Option.some.inj ht
    exact ⟨hstart, Int.le_refl _⟩
  · obtain rfl := Option.some.inj ht
    exact hsafe w hw (none, r) hr rfl
  · intro l hact hcomp hcur
    exact written_effect h.written hw hact hcomp hcur

theorem consistent_completeWrite (h : Consistent flags s)
    (hc : flags.checkCorrectness = true) {i : Nat} {err : Option String} {endTime : Int}
    {w : Call K V SetCall} (hw : s.ledger.active[i]? = some w)
    (hr : w.client.result = some (err, endTime))
    (hok : err = none → w.client.effect ≠ none)
    (hl : s.ledger.step flags (.completeWrite i err (w.client.startTime + w.client.ttl)
      (endTime + w.client.ttl) s.now) = some ledger) : Consistent flags { s with ledger } := by
  have hsound := Ledger.sound_step h.sound hc (by trivial) hl
  obtain ⟨_, hstep⟩ := Ledger.step_cases hl
  cases hstep with
  | panic hw' hcc => exact absurd hcc (Ledger.not_panics h.sound hc hw')
  | @completeWrite _ _ _ _ _ _ cc hw' hcc =>
      obtain rfl := Option.some.inj (hw.symm.trans hw')
      have hcomp := Ledger.completes_of_getElem? hw cc (c := w.complete flags err
        (w.client.startTime + w.client.ttl) (endTime + w.client.ttl) s.now s.ledger.seq)
        rfl rfl
      refine ⟨hsound, ?_, ?_, written_completes h.written h.sound hcomp hok, ?_, h.reports⟩
      · exact fun u hu => h.active u (List.mem_of_mem_eraseIdx hu)
      · simp only [List.forall_mem_cons]
        refine ⟨?_, h.completed⟩
        obtain ⟨_, heffect, hresult⟩ := h.active w (List.mem_of_getElem? hw)
        refine ⟨rfl, ?_, ?_⟩
        · intro t ht
          have hle := heffect t ht
          simp only [Call.complete, newVal]
          omega
        · intro herr t ht
          simp only [Call.complete, newVal] at herr ⊢
          subst herr
          have hle := hresult endTime hr t ht
          omega
      · exact fun r hr => readOk_completes (h.reads r hr) h.sound hsound hcomp

theorem consistent_beginRead (h : Consistent flags s) (hc : flags.checkCorrectness = true)
    {key : K} {startTime : Int} (ht : startTime ≤ s.now) :
    Consistent flags { s with
      reads := s.reads ++ [⟨key, startTime, (s.ledger.cc.beginRead flags key).1,
        (s.ledger.cc.beginRead flags key).2, none⟩] } := by
  refine ⟨h.sound, h.active, h.completed, ⟨h.written.writer, h.written.active,
    h.written.completed, h.written.latest⟩, ?_, h.reports⟩
  simp only [List.forall_mem_append, List.forall_mem_singleton,
    ConsistencyChecker.beginRead_enabled hc]
  exact ⟨h.reads, ht, Int.le_refl _, fun _ _ _ _ hseen => absurd hseen (by simp)⟩

theorem consistent_getEffect (h : Consistent flags s) {j : Nat} {r : ReadCall K V}
    (hr : s.reads[j]? = some r) :
    Consistent flags { s with reads := s.reads.set j { r with
      seen := some ((s.store r.key).bind (·.visible s.now), s.now) } } := by
  refine ⟨h.sound, h.active, h.completed, ⟨h.written.writer, h.written.active,
    h.written.completed, h.written.latest⟩, ?_, h.reports⟩
  intro q hq
  rcases List.mem_or_eq_of_mem_set hq with hq | rfl
  · exact h.reads q hq
  · obtain ⟨hstart, hversion, _⟩ := h.reads r (List.mem_of_getElem? hr)
    refine ⟨hstart, hversion, fun _ hrc value seenAt hseen => ?_⟩
    obtain ⟨rfl, rfl⟩ := Prod.mk.inj (Option.some.inj hseen)
    have hexplained := explained_get h.written h.sound h.completed hstart hrc
    cases hv : (s.store r.key).bind (·.visible s.now) <;> rwa [hv] at hexplained

/-- The checker finds no fault with a read that is explained. -/
theorem checkReadCorrect_none (h : Consistent flags s) {j : Nat} {r : ReadCall K V}
    {value : Option V} {seenAt : Int} (hr : s.reads[j]? = some r)
    (hs : r.seen = some (value, seenAt)) (hsafe : s.CheckSafe flags (.checkRead j)) (v : V) :
    (s.ledger.cc.checkReadCorrect flags r.key (value.getD v) value.isSome r.startTime
      r.initialVersion r.writesPending s.now).2 = none := by
  apply ConsistencyChecker.checkReadCorrect_snd
  intro hversion hrc _
  have hexplained := (h.reads r (List.mem_of_getElem? hr)).seen hversion hrc _ _ hs
  cases value with
  | some v => exact checkRead_found h.sound hexplained
  | none =>
      rcases hsafe r hr (none, seenAt) hs ⟨rfl, hversion, hrc⟩ with
        hnone | ⟨hlt, d, hd, hdk, hne⟩ | ⟨c, hmem, hk, hc, hlt⟩
      · exact checkRead_unwritten h.sound hnone
      · rcases hexplained with hall | ⟨c, hc, hk, hle⟩
        · exact absurd (hall d hd hdk) hne
        · exact checkRead_notFound h.sound hc hk (by omega)
      · refine checkRead_notFound h.sound hc hk ?_
        rw [(h.completed c hmem).recorded]
        exact hlt

theorem consistent_checkRead (h : Consistent flags s) {j : Nat} {n : UInt64} :
    Consistent flags { s with
      ledger := { s.ledger with cc := { s.ledger.cc with checksRun := n } }
      reads := s.reads.eraseIdx j } := by
  refine ⟨?_, h.active, h.completed, ⟨h.written.writer, h.written.active,
    h.written.completed, h.written.latest⟩, ?_, h.reports⟩
  · exact ⟨⟨h.sound.active, h.sound.begun, h.sound.completed, h.sound.newest⟩, h.sound.alive,
      h.sound.apart, h.sound.rc, h.sound.version, h.sound.initialVersion, h.sound.entry,
      h.sound.values, h.sound.overwritten⟩
  · intro r hr
    obtain ⟨hstart, hversion, hseen⟩ := h.reads r (List.mem_of_mem_eraseIdx hr)
    refine ⟨hstart, hversion, fun hv hrc value seenAt hs => ?_⟩
    exact explained_mono (fun _ _ hc => hc) (fun _ hc _ => hc) (hseen hv hrc value seenAt hs)

theorem consistent_step [Inhabited V] {t : Tester K V} {e : TestEvent K V}
    (h : Consistent flags s) (hc : flags.checkCorrectness = true)
    (hbuf : 0 ≤ flags.ttlCheckBuffer) (hfresh : s.FreshValue e)
    (hsafe : s.CheckSafe flags e) (hstep : s.step flags e = some t) :
    Consistent flags t := by
  cases step_cases hstep with
  | tick => exact consistent_tick h _
  | beginWrite ht hl => exact consistent_beginWrite h hc ht hfresh hl
  | setEffect hw _ hl => exact consistent_setEffect h hc hw hsafe hl
  | setReturn hw _ hl => exact consistent_setReturn h hc hbuf hw hl
  | completeWrite hw hr hok hl => exact consistent_completeWrite h hc hw hr hok hl
  | beginRead ht => exact consistent_beginRead h hc ht
  | getEffect hr => exact consistent_getEffect h hr
  | checkRead hr hs hcc =>
      have hnone := checkReadCorrect_none h hr hs hsafe default
      rw [hcc] at hnone
      obtain rfl : _ = none := hnone
      obtain ⟨n, rfl⟩ := ConsistencyChecker.checkReadCorrect_fst hcc
      simpa only [Option.toList_none, List.append_nil] using consistent_checkRead h

end Steps

end Tester

/-- In a run in which every checked read that found nothing is of a key without a completed
write, follows a write that took effect, or comes after the TTL of one that may have, and no
successful set takes effect late, the checker reports nothing. -/
theorem no_false_positive {K V : Type} [DecidableEq K] [DecidableEq V] [Inhabited V]
    {flags : Flags} (hc : flags.checkCorrectness = true) (hbuf : 0 ≤ flags.ttlCheckBuffer)
    {start : Int} {h : List (Tester K V)}
    (run : (stressTest K V flags start).Run
      (fun s e => s.FreshValue e ∧ s.CheckSafe flags e) h) :
    ∀ s ∈ h, s.ledger.panicked = false ∧ s.reports = [] := by
  have consistent := Machine.Run.invariant (I := Tester.Consistent flags) ?_ ?_ run
  · exact fun s hs => ⟨(consistent s hs).sound.alive, (consistent s hs).reports⟩
  · have hsound : (writes K V SetCall flags).init.Sound := Ledger.sound_init
    refine ⟨hsound, ?_, ?_, ⟨?_, ?_, ?_, ?_⟩, ?_, rfl⟩ <;> simp [stressTest, writes]
  · intro s e t hs he ht
    exact Tester.consistent_step hs hc hbuf he.1 he.2 ht

/-- A value is read before and after it expires. Another key is read before it is written,
at once, and again when the TTL of a write that failed has passed. All four reads are
checked. -/
theorem no_false_positive_expiry : ∃ h,
    (stressTest Nat Nat {} 0).Run (fun s e => s.FreshValue e ∧ s.CheckSafe {} e) h ∧
    (∃ s ∈ h, s.ledger.cc.checksRun = 4) ∧ ∀ s ∈ h, s.reports = [] := by
  obtain ⟨h, run, hchecks⟩ :=
    (stressTest Nat Nat {} 0).exists_run_of_replay
      (fun s e => s.FreshValue e ∧ s.CheckSafe {} e)
      [.beginWrite 7 1 100 0, .tick 2, .setEffect 0, .tick 1, .setReturn 0 none,
        .completeWrite 0, .beginRead 7 3, .getEffect 0, .checkRead 0, .tick 200,
        .beginRead 7 200, .getEffect 0, .tick 1, .checkRead 0, .beginRead 8 204,
        .getEffect 0, .checkRead 0, .beginWrite 8 1 100 204,
        .setReturn 0 (some "deadline exceeded"), .completeWrite 0, .tick 101,
        .beginRead 8 305, .getEffect 0, .checkRead 0]
      (fun h => ∃ s ∈ h, s.ledger.cc.checksRun = 4) (by decide +kernel)
  exact ⟨h, run, hchecks, fun s hs => (no_false_positive rfl (by decide) run s hs).2⟩

/-- The only write of a key fails and does not take effect. Before its TTL has passed a
read rightly finds nothing, and the checker reports it. -/
theorem failed_write_reported : ∃ h, (stressTest Nat Nat {} 0).Run Tester.FreshValue h ∧
    ∃ s ∈ h, 0 < s.reports.length :=
  (stressTest Nat Nat {} 0).exists_run_of_replay Tester.FreshValue
    [.beginWrite 7 1 100 0, .tick 1, .setReturn 0 (some "deadline exceeded"),
      .completeWrite 0, .tick 1, .beginRead 7 2, .tick 1, .getEffect 0, .tick 1, .checkRead 0]
    (fun h => ∃ s ∈ h, 0 < s.reports.length) (by decide +kernel)

end CheckerLab
