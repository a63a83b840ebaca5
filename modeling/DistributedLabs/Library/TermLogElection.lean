import DistributedLabs.Library.TermLog

/-!
Votes and leaders of the abstract replicated log. A node's vote of a term never
changes, a grant is the vote of its term, and a leader has a majority of grants;
so a term has one leader over the whole history, and the logs it led with are
ordered by prefix.
-/

namespace TermLog

open Majority

variable {S E : Type} [DecidableEq S] [Fintype S] {G : Genesis E}
variable {a b : Cluster S E} {H : List (Cluster S E)}

section Keeps

omit [DecidableEq S] [Fintype S]

variable {x y z : Node S E}

/-- A node that is `x` may later be `y`: its term has not fallen, and a vote lasts as
long as its term. -/
def Node.Keeps (x y : Node S E) : Prop :=
  x.term ≤ y.term ∧ (x.term = y.term → ∀ c, x.vote = some c → y.vote = some c)

theorem Node.Keeps.refl (x : Node S E) : x.Keeps x :=
  ⟨Int.le_refl _, fun _ _ hc => hc⟩

theorem Node.Keeps.trans (hxy : x.Keeps y) (hyz : y.Keeps z) : x.Keeps z := by
  have h1 := hxy.1
  have h2 := hyz.1
  refine ⟨Int.le_trans h1 h2, ?_⟩
  intro hterm c hc
  exact hyz.2 (by omega) c (hxy.2 (by omega) c hc)

/-- A node that keeps its votes from step to step has one vote per term over a whole
history. -/
theorem vote_unique_of_keeps {σ : Type} {init : σ} {next : List σ → σ → Prop}
    (node : σ → Node S E) (hstep : ∀ s h t, next (s :: h) t → (node s).Keeps (node t))
    {h : List σ} (run : History init next h) {s t : σ} (hs : s ∈ h) (ht : t ∈ h)
    (hterm : (node s).term = (node t).term) {c d : S}
    (hc : (node s).vote = some c) (hd : (node t).vote = some d) : c = d := by
  have hrel := History.related_total (R := fun s t => (node s).Keeps (node t))
    (fun s => .refl (node s)) (fun _ _ _ => Node.Keeps.trans) hstep run s hs t ht
  rcases hrel with hst | hts
  · exact Option.some.inj ((hst.2 hterm c hc).symm.trans hd)
  · exact Option.some.inj (hc.symm.trans (hts.2 hterm.symm d hd))

end Keeps

theorem Next.keeps (hn : Next G (a :: H) b) (v : S) : (a.node v).Keeps (b.node v) := by
  have st := next_cons.mp hn
  exact ⟨st.term_le v, fun ht c hc => st.vote_kept v ht.symm hc⟩

theorem Run.term_le (run : Run G (a :: H)) (hb : b ∈ a :: H) (v : S) :
    (b.node v).term ≤ (a.node v).term := by
  have hrel := History.related
    (R := fun b a : Cluster S E => (b.node v).Keeps (a.node v))
    (fun a => .refl (a.node v)) (fun _ _ _ => Node.Keeps.trans)
    (fun _ _ _ hn => Next.keeps hn v) run b hb
  exact hrel.1

theorem Run.voted_le (run : Run G (a :: H)) {v c : S} {T : Int}
    (h : Voted (a :: H) v T c) : T ≤ (a.node v).term := by
  obtain ⟨b, hb, rfl, _⟩ := h
  exact run.term_le hb v

theorem Run.held_le (run : Run G (a :: H)) {v : S} {T : Int} {k : Nat} {e : E}
    (h : Held (a :: H) v T k e) : T ≤ (a.node v).term := by
  obtain ⟨b, hb, rfl, _⟩ := h
  exact run.term_le hb v

theorem Run.campaigned_le (run : Run G (a :: H)) {v : S} {T : Int} {l : List E}
    (h : Campaigned (a :: H) v T l) : T ≤ (a.node v).term := by
  obtain ⟨b, hb, _, rfl, _⟩ := h
  exact run.term_le hb v

theorem Run.led_le (run : Run G (a :: H)) {v : S} {T : Int} {l : List E}
    (h : Led (a :: H) v T l) : T ≤ (a.node v).term := by
  obtain ⟨b, hb, _, rfl, _⟩ := h
  exact run.term_le hb v

/-- One vote per node and term, over the whole history. -/
theorem Run.voted_unique (run : Run G H) {v c d : S} {T : Int} (hc : Voted H v T c)
    (hd : Voted H v T d) : c = d := by
  obtain ⟨p, hp, hpT, hpc⟩ := hc
  obtain ⟨q, hq, hqT, hqd⟩ := hd
  exact vote_unique_of_keeps (fun a : Cluster S E => a.node v)
    (fun _ _ _ hn => Next.keeps hn v) run hp hq (hpT.trans hqT.symm) hpc hqd

/-- A grant is the voter's vote of that term. -/
theorem Run.grant_voted (run : Run G (a :: H)) {v c : S} {T : Int} :
    a.grant v T c → Voted (a :: H) v T c := by
  refine History.head_induction
    (P := fun a H => a.grant v T c → Voted (a :: H) v T c) ?_ ?_ run
  · intro h
    cases h
  · intro a b H _ ih hn hg
    rcases (next_cons.mp hn).grant_cases hg with hg | ⟨_, ht, hv, _⟩
    · exact (ih hg).mono (fun _ => List.mem_cons_of_mem _)
    · exact voted_cons.mpr (Or.inl ⟨ht, hv⟩)

/-- A grant answers a candidate of that term. -/
theorem Run.grant_campaigned (run : Run G (a :: H)) {v c : S} {T : Int} :
    a.grant v T c → ∃ l, Campaigned (a :: H) c T l := by
  refine History.head_induction
    (P := fun a H => a.grant v T c → ∃ l, Campaigned (a :: H) c T l) ?_ ?_ run
  · intro h
    cases h
  · intro a b H _ ih hn hg
    rcases (next_cons.mp hn).grant_cases hg with hg | ⟨_, _, _, _, l, hl, _⟩
    · obtain ⟨l, hl⟩ := ih hg
      exact ⟨l, hl.mono (fun _ => List.mem_cons_of_mem _)⟩
    · exact ⟨l, hl.mono (fun _ => List.mem_cons_of_mem _)⟩

theorem Run.self_vote {H : List (Cluster S E)} (run : Run G H) :
    ∀ a ∈ H, ∀ v, (a.node v).role ≠ .follower → (a.node v).vote = some v := by
  refine History.invariant
    (I := fun a : Cluster S E => ∀ v, (a.node v).role ≠ .follower →
      (a.node v).vote = some v) ?_ ?_ run
  · intro v hv
    exact absurd rfl hv
  · intro a H b hn ha v
    exact (next_cons.mp hn).self_vote v (ha v)

/-- Nodes that are not followers are past the initial term. -/
theorem Run.epoch_lt {H : List (Cluster S E)} (run : Run G H) :
    ∀ a ∈ H, ∀ v, G.epoch ≤ (a.node v).term ∧
      ((a.node v).role ≠ .follower → G.epoch < (a.node v).term) := by
  refine History.invariant
    (I := fun a : Cluster S E => ∀ v, G.epoch ≤ (a.node v).term ∧
      ((a.node v).role ≠ .follower → G.epoch < (a.node v).term)) ?_ ?_ run
  · intro v
    exact ⟨Int.le_refl _, fun hv => absurd rfl hv⟩
  · intro a H b hn ha v
    have st := next_cons.mp hn
    have hle := st.term_le v
    refine ⟨Int.le_trans (ha v).1 hle, ?_⟩
    intro hr
    cases hb : (b.node v).role with
    | follower => exact absurd hb hr
    | leader =>
        rcases (st.leader_cases hb).2 with h | ⟨h, _⟩
        · have := (ha v).2 (by rw [h]; decide)
          omega
        · have := (ha v).2 (by rw [h]; decide)
          omega
    | candidate =>
        rcases (st.candidate_cases hb).2 with ⟨_, h⟩ | h
        · have := (ha v).2 (by rw [h]; decide)
          omega
        · have := (ha v).1
          omega

theorem Run.led_epoch (run : Run G H) {v : S} {T : Int} {l : List E}
    (h : Led H v T l) : G.epoch < T := by
  obtain ⟨b, hb, hr, rfl, _⟩ := h
  exact (run.epoch_lt b hb v).2 (by rw [hr]; decide)

/-- Every leader has a majority behind it: itself and nodes that granted it
their vote. -/
theorem Run.led_majority (run : Run G (a :: H)) {v : S} {T : Int} {l : List E} :
    Led (a :: H) v T l →
      ∃ Q, IsMajority Q ∧ ∀ u ∈ Q, u = v ∨ a.grant u T v := by
  refine History.head_induction
    (P := fun a H => ∀ l, Led (a :: H) v T l →
      ∃ Q, IsMajority Q ∧ ∀ u ∈ Q, u = v ∨ a.grant u T v) ?_ ?_ run l
  · exact fun l hl => absurd hl not_led_start
  · intro a b H _ ih hn l hl
    have st := next_cons.mp hn
    have old : ∀ l, Led (a :: H) v T l →
        ∃ Q, IsMajority Q ∧ ∀ u ∈ Q, u = v ∨ b.grant u T v := by
      intro l hl
      obtain ⟨Q, hQ, hu⟩ := ih l hl
      exact ⟨Q, hQ, fun u h => (hu u h).imp_right st.grant_mono⟩
    rcases led_cons.mp hl with ⟨hr, ht, _⟩ | hl
    · obtain ⟨hta, hc⟩ := st.leader_cases hr
      rcases hc with hr' | ⟨_, _, Q, hQ, hu⟩
      · exact old _ (led_cons.mpr (Or.inl ⟨hr', hta.symm.trans ht, rfl⟩))
      · refine ⟨Q, hQ, fun u h => ?_⟩
        rw [← hta, ht] at hu
        exact (hu u h).imp_right st.grant_mono
    · exact old l hl

theorem Run.led_voted (run : Run G H) {v : S} {T : Int} {l : List E}
    (h : Led H v T l) : Voted H v T v := by
  obtain ⟨b, hb, hr, ht, _⟩ := h
  exact ⟨b, hb, ht, run.self_vote b hb v (by rw [hr]; decide)⟩

/-- A term has at most one leader over the whole history. -/
theorem Run.led_unique (run : Run G (a :: H)) {u v : S} {T : Int} {l m : List E}
    (hu : Led (a :: H) u T l) (hv : Led (a :: H) v T m) : u = v := by
  obtain ⟨P, hP, hPu⟩ := run.led_majority hu
  obtain ⟨Q, hQ, hQv⟩ := run.led_majority hv
  obtain ⟨w, hwP, hwQ⟩ := exists_mem_inter hP hQ
  have h1 : Voted (a :: H) w T u := by
    rcases hPu w hwP with rfl | hg
    · exact run.led_voted hu
    · exact run.grant_voted hg
  have h2 : Voted (a :: H) w T v := by
    rcases hQv w hwQ with rfl | hg
    · exact run.led_voted hv
    · exact run.grant_voted hg
  exact run.voted_unique h1 h2

/-- A leader leads for the rest of its term and only extends its log. -/
theorem Run.led_stays (run : Run G (a :: H)) {v : S} {T : Int} {l : List E} :
    Led (a :: H) v T l → (a.node v).term = T →
      (a.node v).role = .leader ∧ l <+: (a.node v).log := by
  refine History.head_induction
    (P := fun a H => Led (a :: H) v T l → (a.node v).term = T →
      (a.node v).role = .leader ∧ l <+: (a.node v).log) ?_ ?_ run
  · exact fun hl => absurd hl not_led_start
  · intro a b H run ih hn hl ht
    have st := next_cons.mp hn
    rcases led_cons.mp hl with ⟨hr, _, hlog⟩ | hl
    · exact ⟨hr, by rw [hlog]⟩
    · have hle := Run.led_le run hl
      have hstep := st.term_le v
      have hta : (a.node v).term = T := by omega
      obtain ⟨hr, hp⟩ := ih hl hta
      have hrb : (b.node v).role = .leader := by
        rcases st.leader_stays hr (ht.trans hta.symm) with h | ⟨u, m, hne, hu⟩
        · exact h
        · rw [hta] at hu
          exact absurd (Run.led_unique run hu hl) hne
      refine ⟨hrb, ?_⟩
      rcases st.log_cases v with h | ⟨_, _, e, _, h⟩ | ⟨hf, _⟩
      · rwa [h]
      · rw [h]
        exact hp.trans (List.prefix_append _ _)
      · rw [hrb] at hf
        cases hf

/-- The logs a term was led with are ordered by prefix. -/
theorem Run.led_chain (run : Run G (a :: H)) {u v : S} {T : Int} {l m : List E}
    (hu : Led (a :: H) u T l) (hv : Led (a :: H) v T m) : l <+: m ∨ m <+: l := by
  obtain rfl := run.led_unique hu hv
  refine History.head_induction
    (P := fun a H => Led (a :: H) u T l → Led (a :: H) u T m → l <+: m ∨ m <+: l)
    ?_ ?_ run hu hv
  · exact fun hl => absurd hl not_led_start
  · intro a b H run ih hn hl hm
    have run' : Run G (b :: a :: H) := run.next hn
    rcases led_cons.mp hl with ⟨_, ht, rfl⟩ | hl'
    · exact Or.inr (run'.led_stays hm ht).2
    · rcases led_cons.mp hm with ⟨_, ht, rfl⟩ | hm'
      · exact Or.inl (run'.led_stays hl ht).2
      · exact ih hl' hm'

/-- As long as a node stays in a term it keeps what it once had of the logs that the
term was led with. -/
theorem Run.led_kept (run : Run G (a :: H)) {u v : S} {l : List E} :
    ∀ c ∈ a :: H, (c.node v).term = (a.node v).term → l <+: (c.node v).log →
      Led (a :: H) u (a.node v).term l → l <+: (a.node v).log := by
  -- a log the term is led with later need not have been led with yet at the older points,
  -- so the induction asks only that it be comparable with those that were
  suffices h : ∀ c ∈ a :: H, (c.node v).term = (a.node v).term → l <+: (c.node v).log →
      (∀ w m, Led (a :: H) w (a.node v).term m → l <+: m ∨ m <+: l) →
      l <+: (a.node v).log from
    fun c hc ht hl hled => h c hc ht hl fun w m hm => run.led_chain hled hm
  refine History.head_induction
    (P := fun a H => ∀ c ∈ a :: H, (c.node v).term = (a.node v).term →
      l <+: (c.node v).log → (∀ w m, Led (a :: H) w (a.node v).term m →
        l <+: m ∨ m <+: l) → l <+: (a.node v).log) ?_ ?_ run
  · intro c hc _ hl _
    rwa [List.mem_singleton.mp hc] at hl
  · intro a b H run ih hn c hc ht hl hchain
    have st := next_cons.mp hn
    cases hc with
    | head => exact hl
    | tail _ hc =>
        have hca : (c.node v).term ≤ (a.node v).term := Run.term_le run hc v
        have hab := st.term_le v
        have hta : (a.node v).term = (b.node v).term := by omega
        have hla : l <+: (a.node v).log := by
          refine ih c hc (ht.trans hta.symm) hl ?_
          intro w m hm
          exact hchain w m (hta ▸ hm.mono (fun _ => List.mem_cons_of_mem _))
        rcases st.log_cases v with h | ⟨_, _, e, _, h⟩ | ⟨_, _, w, hw, hne⟩
        · rwa [h]
        · rw [h]
          exact hla.trans (List.prefix_append _ _)
        · have hm := hw.mono (fun _ => List.mem_cons_of_mem b)
          cases hchain w _ (hta ▸ hm) with
          | inl h => exact h
          | inr h => exact absurd (h.trans hla) hne

/-- A candidate keeps the log it started to stand with. -/
theorem Run.campaigned_log (run : Run G (a :: H)) {v : S} {T : Int} {l : List E} :
    Campaigned (a :: H) v T l → (a.node v).role = .candidate →
      (a.node v).term = T → (a.node v).log = l := by
  refine History.head_induction
    (P := fun a H => Campaigned (a :: H) v T l → (a.node v).role = .candidate →
      (a.node v).term = T → (a.node v).log = l) ?_ ?_ run
  · intro _ hr
    cases hr
  · intro a b H run ih hn hl hr ht
    rcases campaigned_cons.mp hl with ⟨_, _, h⟩ | hl
    · exact h
    · have hle := Run.campaigned_le run hl
      obtain ⟨hlog, ⟨hta, hra⟩ | hta⟩ := (next_cons.mp hn).candidate_cases hr
      · rw [hlog]
        exact ih hl hra (hta.symm.trans ht)
      · omega

theorem Run.campaigned_unique (run : Run G (a :: H)) {v : S} {T : Int} {l m : List E} :
    Campaigned (a :: H) v T l → Campaigned (a :: H) v T m → l = m := by
  refine History.head_induction
    (P := fun a H => Campaigned (a :: H) v T l → Campaigned (a :: H) v T m → l = m)
    ?_ ?_ run
  · exact fun hl => absurd hl not_campaigned_start
  · intro a b H run ih hn hl hm
    have run' : Run G (b :: a :: H) := run.next hn
    rcases campaigned_cons.mp hl with ⟨hr, ht, rfl⟩ | hl'
    · exact run'.campaigned_log hm hr ht
    · rcases campaigned_cons.mp hm with ⟨hr, ht, rfl⟩ | hm'
      · exact (run'.campaigned_log hl hr ht).symm
      · exact ih hl' hm'

end TermLog
