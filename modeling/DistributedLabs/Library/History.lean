import Mathlib.Data.List.Basic

/-!
Histories of a transition system, newest state first. The next state may depend
on the whole past, so that a ghost protocol and an executable machine share one
notion of run. Invariants are proved once over the rule `History.next`.
-/

/-- A finite run: what `next` allows after the history so far is put in front. -/
inductive History {σ : Type} (init : σ) (next : List σ → σ → Prop) : List σ → Prop
  | start : History init next [init]
  | next {h : List σ} {s : σ} :
      History init next h → next h s → History init next (s :: h)

namespace History

variable {σ : Type} {init : σ} {next : List σ → σ → Prop}

theorem ne_nil {h : List σ} (run : History init next h) : h ≠ [] := by
  cases run <;> simp

/-- Induction over a run, with the newest state and the past kept apart. -/
theorem head_induction {P : σ → List σ → Prop} (h0 : P init [])
    (hstep : ∀ s t h, History init next (s :: h) → P s h → next (s :: h) t →
      P t (s :: h))
    {s : σ} {h : List σ} (run : History init next (s :: h)) : P s h := by
  induction h generalizing s with
  | nil =>
      cases run with
      | start => exact h0
      | next run _ => exact absurd rfl run.ne_nil
  | cons u h ih =>
      cases run with
      | next run hs => exact hstep u s h run (ih run) hs

theorem exists_head {h : List σ} (run : History init next h) :
    ∃ s h', h = s :: h' := by
  cases h with
  | nil => exact absurd rfl run.ne_nil
  | cons s h' => exact ⟨s, h', rfl⟩

/-- The run up to a point, with the newer states dropped. -/
theorem drop (newer : List σ) {h : List σ} (hne : h ≠ []) (run : History init next (newer ++ h)) :
    History init next h := by
  induction newer with
  | nil => exact run
  | cons s newer ih =>
      apply ih
      cases hrest : newer ++ h with
      | nil => exact absurd (List.append_eq_nil_iff.mp hrest).2 hne
      | cons t rest =>
          rw [List.cons_append, hrest] at run
          cases run with
          | next run _ => exact run

/-- The run up to one of its points. -/
theorem exists_upTo {h : List σ} (run : History init next h) {s : σ} (hs : s ∈ h) :
    ∃ h', History init next (s :: h') ∧ ∀ t ∈ s :: h', t ∈ h := by
  induction run with
  | start =>
      obtain rfl := List.mem_singleton.mp hs
      exact ⟨[], .start, fun _ ht => ht⟩
  | next run hn ih =>
      cases hs with
      | head => exact ⟨_, .next run hn, fun _ ht => ht⟩
      | tail _ hs =>
          obtain ⟨h', run', hsub⟩ := ih hs
          exact ⟨h', run', fun t ht => List.mem_cons_of_mem _ (hsub t ht)⟩

/-- A property of the initial state that every step keeps holds at every point. -/
theorem invariant {I : σ → Prop} (h0 : I init)
    (hstep : ∀ s h t, next (s :: h) t → I s → I t) {h : List σ}
    (run : History init next h) : ∀ s ∈ h, I s := by
  obtain ⟨u, h', rfl⟩ := run.exists_head
  refine head_induction (P := fun u h' => ∀ s ∈ u :: h', I s) ?_ ?_ run
  · intro s hs
    rwa [List.mem_singleton.mp hs]
  · intro u t h _ ih ht s hs
    cases hs with
    | head => exact hstep u h _ ht (ih u List.mem_cons_self)
    | tail _ hs => exact ih s hs

/-- A preorder that every step respects relates every point to the newest one. -/
theorem related {R : σ → σ → Prop} (hrefl : ∀ s, R s s)
    (htrans : ∀ s t u, R s t → R t u → R s u)
    (hstep : ∀ s h t, next (s :: h) t → R s t) {s : σ} {h : List σ}
    (run : History init next (s :: h)) : ∀ t ∈ s :: h, R t s := by
  refine head_induction (P := fun s h => ∀ t ∈ s :: h, R t s) ?_ ?_ run
  · intro t ht
    rw [List.mem_singleton.mp ht]
    exact hrefl init
  · intro u s h _ ih hs t ht
    cases ht with
    | head => exact hrefl _
    | tail _ ht => exact htrans t u s (ih t ht) (hstep u h s hs)

/-- Under such a preorder any two points of a run are related, the older one to
the newer one. -/
theorem related_total {R : σ → σ → Prop} (hrefl : ∀ s, R s s)
    (htrans : ∀ s t u, R s t → R t u → R s u)
    (hstep : ∀ s h t, next (s :: h) t → R s t) {h : List σ}
    (run : History init next h) : ∀ s ∈ h, ∀ t ∈ h, R s t ∨ R t s := by
  induction run with
  | start =>
      intro s hs t ht
      rw [List.mem_singleton.mp hs, List.mem_singleton.mp ht]
      exact Or.inl (hrefl init)
  | next run hn ih =>
      intro s hs t ht
      have newest := related hrefl htrans hstep (run.next hn)
      rcases List.mem_cons.mp hs with rfl | hs'
      · exact Or.inr (newest t ht)
      · rcases List.mem_cons.mp ht with rfl | ht'
        · exact Or.inl (newest s hs)
        · exact ih s hs' t ht'

end History

/-- An executable machine: an event that is not enabled has no successor. -/
structure Machine (σ ε : Type) where
  init : σ
  step : σ → ε → Option σ

namespace Machine

variable {σ ε : Type} (M : Machine σ ε)

/-- One event that satisfies `allowed` in the newest state. -/
def Next (allowed : σ → ε → Prop) (h : List σ) (t : σ) : Prop :=
  ∃ s e, h.head? = some s ∧ allowed s e ∧ M.step s e = some t

/-- The histories of the machine in which every event is `allowed`. -/
abbrev Run (allowed : σ → ε → Prop) : List σ → Prop :=
  History M.init (M.Next allowed)

theorem next_cons {allowed : σ → ε → Prop} {s t : σ} {h : List σ} :
    M.Next allowed (s :: h) t ↔ ∃ e, allowed s e ∧ M.step s e = some t := by
  simp [Next]

variable {M}

/-- Events that are allowed stay allowed when more are. -/
theorem Run.mono {P Q : σ → ε → Prop} (hPQ : ∀ s e, P s e → Q s e) {h : List σ}
    (run : M.Run P h) : M.Run Q h := by
  induction run with
  | start => exact .start
  | next _ hn ih =>
      obtain ⟨s, e, hs, hp, ht⟩ := hn
      exact ih.next ⟨s, e, hs, hPQ s e hp, ht⟩

theorem Run.invariant {P : σ → ε → Prop} {I : σ → Prop} (h0 : I M.init)
    (hstep : ∀ s e t, I s → P s e → M.step s e = some t → I t) {h : List σ}
    (run : M.Run P h) : ∀ s ∈ h, I s := by
  refine History.invariant h0 ?_ run
  intro s h t hn hs
  obtain ⟨e, hp, ht⟩ := M.next_cons.mp hn
  exact hstep s e t hs hp ht

/-- A transitive relation that holds across every step from a state with the invariant
holds from every point of a run to every later one. -/
theorem Run.pairwise {P : σ → ε → Prop} {I : σ → Prop} {R : σ → σ → Prop} (h0 : I M.init)
    (hinv : ∀ s e t, I s → P s e → M.step s e = some t → I t)
    (htrans : ∀ s t u, R s t → R t u → R s u)
    (hstep : ∀ s e t, I s → P s e → M.step s e = some t → R s t) {h : List σ}
    (run : M.Run P h) : h.Pairwise (fun newer older => R older newer) := by
  have hI := run.invariant h0 hinv
  induction run with
  | start => exact List.pairwise_singleton _ _
  | @next h t run hn ih =>
      obtain ⟨s, h, rfl⟩ := run.exists_head
      obtain ⟨e, hp, ht⟩ := M.next_cons.mp hn
      have hpast := ih (fun u hu => hI u (List.mem_cons_of_mem _ hu))
      have hst := hstep s e t (hI s (List.mem_cons_of_mem _ List.mem_cons_self)) hp ht
      refine List.pairwise_cons.mpr ⟨?_, hpast⟩
      intro u hu
      cases hu with
      | head => exact hst
      | tail _ hu => exact htrans u s t (List.rel_of_pairwise_cons hpast hu) hst

/-- A machine that loses rank in every step stops. -/
theorem Run.length_le {P : σ → ε → Prop} {I : σ → Prop} (rank : σ → Nat) (h0 : I M.init)
    (hinv : ∀ s e t, I s → P s e → M.step s e = some t → I t)
    (hdec : ∀ s e t, I s → P s e → M.step s e = some t → rank t < rank s) {h : List σ}
    (run : M.Run P h) : h.length ≤ rank M.init + 1 := by
  obtain ⟨s, h, rfl⟩ := run.exists_head
  have hrank : I s ∧ rank s + h.length ≤ rank M.init := by
    refine History.head_induction (P := fun s h => I s ∧ rank s + h.length ≤ rank M.init)
      ⟨h0, Nat.le_refl _⟩ ?_ run
    intro s t h _ ih hn
    obtain ⟨e, hp, ht⟩ := M.next_cons.mp hn
    have hlt := hdec s e t ih.1 hp ht
    refine ⟨hinv s e t ih.1 hp ht, ?_⟩
    rw [List.length_cons]
    omega
  rw [List.length_cons]
  omega

/-- If outside `G` some event is always enabled that loses rank, a run can be continued into
a state with `G`. -/
theorem Run.exists_reach {P : σ → ε → Prop} {I G : σ → Prop} (rank : σ → Nat)
    (hinv : ∀ s e t, I s → P s e → M.step s e = some t → I t)
    (hdec : ∀ s, I s → ¬ G s → ∃ e t, P s e ∧ M.step s e = some t ∧ rank t < rank s)
    {s : σ} {h : List σ} (run : M.Run P (s :: h)) (hI : I s) :
    ∃ newer, M.Run P (newer ++ s :: h) ∧ ∃ t, (newer ++ s :: h).head? = some t ∧ G t := by
  by_cases hG : G s
  · exact ⟨[], run, s, rfl, hG⟩
  · obtain ⟨e, t, hp, ht, hlt⟩ := hdec s hI hG
    obtain ⟨newer, run', hreach⟩ := Run.exists_reach rank hinv hdec
      (run.next (M.next_cons.mpr ⟨e, hp, ht⟩)) (hinv s e t hI hp ht)
    have happend : newer ++ t :: s :: h = (newer ++ [t]) ++ s :: h := by simp
    rw [happend] at run' hreach
    exact ⟨newer ++ [t], run', hreach⟩
termination_by rank s

/-- If the events with `Q` keep `I` on the way into a state with `G`, and an event that
kept `I` into such a state has `Q`, then a run through states with `G` stays in `I` if
and only if all its events have `Q`. -/
theorem Run.invariant_iff {P Q : σ → ε → Prop} {I G : σ → Prop} (h0 : I M.init)
    (hkeep : ∀ s e t, I s → G t → Q s e → M.step s e = some t → I t)
    (hkept : ∀ s e t, I s → I t → G t → M.step s e = some t → Q s e) {h : List σ}
    (run : M.Run P h) (hG : ∀ s ∈ h, G s) : (∀ s ∈ h, I s) ↔ M.Run Q h := by
  constructor
  · intro hI
    induction run with
    | start => exact .start
    | @next h t run hn ih =>
        obtain ⟨s, h, rfl⟩ := run.exists_head
        obtain ⟨e, _, ht⟩ := M.next_cons.mp hn
        have hs := hI s (List.mem_cons_of_mem _ List.mem_cons_self)
        have hq := hkept s e t hs (hI t List.mem_cons_self) (hG t List.mem_cons_self) ht
        refine .next (ih ?_ ?_) (M.next_cons.mpr ⟨e, hq, ht⟩)
        · exact fun u hu => hG u (List.mem_cons_of_mem _ hu)
        · exact fun u hu => hI u (List.mem_cons_of_mem _ hu)
  · intro hQ
    clear run
    induction hQ with
    | start =>
        intro s hs
        rwa [List.mem_singleton.mp hs]
    | @next h t run hn ih =>
        obtain ⟨s, h, rfl⟩ := run.exists_head
        obtain ⟨e, hq, ht⟩ := M.next_cons.mp hn
        have hpast := ih (fun u hu => hG u (List.mem_cons_of_mem _ hu))
        intro u hu
        cases hu with
        | head => exact hkeep s e t (hpast s List.mem_cons_self) (hG t List.mem_cons_self) hq ht
        | tail _ hu => exact hpast u hu

variable (M)

/-- Runs a list of events from the initial state; the result is the history. -/
def replay (allowed : σ → ε → Prop) [∀ s e, Decidable (allowed s e)] :
    List σ → List ε → Option (List σ)
  | h, [] => some h
  | h, e :: es =>
      match h with
      | [] => none
      | s :: _ =>
          if allowed s e then
            match M.step s e with
            | none => none
            | some t => replay allowed (t :: h) es
          else none

variable {M}

theorem run_of_replay {allowed : σ → ε → Prop} [∀ s e, Decidable (allowed s e)]
    {es : List ε} {h h' : List σ} (run : M.Run allowed h)
    (hr : M.replay allowed h es = some h') : M.Run allowed h' := by
  induction es generalizing h with
  | nil =>
      obtain rfl := Option.some.inj hr
      exact run
  | cons e es ih =>
      cases h with
      | nil => exact absurd rfl run.ne_nil
      | cons s h =>
          simp only [replay] at hr
          split at hr
          · rename_i hp
            cases ht : M.step s e with
            | none => simp [ht] at hr
            | some t =>
                rw [ht] at hr
                exact ih (run.next (M.next_cons.mpr ⟨e, hp, ht⟩)) hr
          · cases hr

variable (M)

/-- A replay whose history has a given feature exhibits a run with it. -/
theorem exists_run_of_replay (allowed : σ → ε → Prop)
    [∀ s e, Decidable (allowed s e)] (es : List ε) (p : List σ → Prop) [DecidablePred p]
    (hr : (M.replay allowed [M.init] es).any (fun h => decide (p h)) = true) :
    ∃ h, M.Run allowed h ∧ p h := by
  cases hh : M.replay allowed [M.init] es with
  | none => simp [hh] at hr
  | some h => exact ⟨h, run_of_replay .start hh, by simpa [hh] using hr⟩

end Machine
