import DistributedLabs.Library.History
import DistributedLabs.Library.Majority
import Mathlib.Logic.Function.Basic
import Mathlib.Data.Int.Basic

/-!
An abstract leader-based replicated log. Every node has a term, a vote, a log
and a role; a cluster also remembers which votes were granted on a comparison of
logs. The steps say what a node may do, given what has happened at any earlier
point of the history: messages are not modelled, a message is the fact that its
sender was once in the state the message reports.

A vote may also be wasted on a candidate of no current election. Wasted votes
are not grants and are never counted.
-/

namespace TermLog

open Majority

inductive Role
  | follower
  | candidate
  | leader
  deriving DecidableEq, Repr

structure Node (S E : Type) where
  term : Int
  vote : Option S
  log : List E
  role : Role

/-- The nodes, and the grants `grant v T c`: `v` granted its vote to `c` in `T`. -/
structure Cluster (S E : Type) where
  node : S → Node S E
  grant : S → Int → S → Prop

/-- What all nodes start from: the term function, the common log and the term. -/
structure Genesis (E : Type) where
  term : E → Int
  log : List E
  epoch : Int
  bounded : ∀ e ∈ log, term e ≤ epoch
  sorted : log.Pairwise (fun x y => term x ≤ term y)

variable {S E : Type}

def Genesis.cluster (G : Genesis E) : Cluster S E where
  node := fun _ => ⟨G.epoch, none, G.log, .follower⟩
  grant := fun _ _ _ => False

/-- The comparison a voter makes: `l` ends at least as late as `f`. -/
def Genesis.UpToDate (G : Genesis E) (l f : List E) : Prop :=
  ∃ x y, l.getLast? = some x ∧ f.getLast? = some y ∧
    (G.term y < G.term x ∨ (G.term x = G.term y ∧ f.length ≤ l.length))

/-- Node `v` becomes `x`; a vote it granted in its term is remembered. -/
def Cluster.apply [DecidableEq S] (a : Cluster S E) (v : S) (x : Node S E)
    (granted : Option S) : Cluster S E where
  node := Function.update a.node v x
  grant := fun w T c => a.grant w T c ∨ (w = v ∧ T = (a.node v).term ∧ granted = some c)

/-- `v` led term `T` with log `l` at some point. -/
def Led (H : List (Cluster S E)) (v : S) (T : Int) (l : List E) : Prop :=
  ∃ a ∈ H, (a.node v).role = .leader ∧ (a.node v).term = T ∧ (a.node v).log = l

/-- `v` stood for term `T` with log `l` at some point. -/
def Campaigned (H : List (Cluster S E)) (v : S) (T : Int) (l : List E) : Prop :=
  ∃ a ∈ H, (a.node v).role = .candidate ∧ (a.node v).term = T ∧ (a.node v).log = l

/-- `v` had its vote on `c` while in term `T`. -/
def Voted (H : List (Cluster S E)) (v : S) (T : Int) (c : S) : Prop :=
  ∃ a ∈ H, (a.node v).term = T ∧ (a.node v).vote = some c

/-- `v` held `e` at position `k` while in term `T`. -/
def Held (H : List (Cluster S E)) (v : S) (T : Int) (k : Nat) (e : E) : Prop :=
  ∃ a ∈ H, (a.node v).term = T ∧ (a.node v).log[k]? = some e

/-- What node `v` may become after the history `H`, whose newest cluster is `a`,
and the candidate it grants its vote to, if any. -/
inductive Move [Fintype S] (G : Genesis E) (H : List (Cluster S E))
    (a : Cluster S E) (v : S) : Node S E → Option S → Prop
  | advance (T : Int) : (a.node v).term < T →
      Move G H a v { a.node v with term := T, vote := none, role := .follower } none
  | campaign : (a.node v).role ≠ .leader →
      Move G H a v { a.node v with
        term := (a.node v).term + 1, vote := some v, role := .candidate } none
  | waste (c : S) : (a.node v).vote = none →
      Move G H a v { a.node v with vote := some c } none
  | grant (c : S) (l : List E) : c ≠ v → Campaigned H c (a.node v).term l →
      ((a.node v).vote = none ∨ (a.node v).vote = some c) →
      G.UpToDate l (a.node v).log →
      Move G H a v { a.node v with vote := some c } (some c)
  | elect (Q : Finset S) : (a.node v).role = .candidate → IsMajority Q →
      (∀ w ∈ Q, w = v ∨ a.grant w (a.node v).term v) →
      Move G H a v { a.node v with role := .leader } none
  | extend (e : E) : (a.node v).role = .leader → G.term e = (a.node v).term →
      Move G H a v { a.node v with log := (a.node v).log ++ [e] } none
  | follow (u : S) (l : List E) : u ≠ v → Led H u (a.node v).term l →
      Move G H a v { a.node v with role := .follower } none
  | adopt (u : S) (l : List E) : u ≠ v → Led H u (a.node v).term l →
      (a.node v).role = .follower → ¬ l <+: (a.node v).log →
      Move G H a v { a.node v with log := l } none

variable [DecidableEq S] [Fintype S]

/-- One node moves. -/
def Step (G : Genesis E) (H : List (Cluster S E)) (a b : Cluster S E) : Prop :=
  ∃ v x g, Move G H a v x g ∧ b = a.apply v x g

/-- The next cluster of a history. -/
def Next (G : Genesis E) (H : List (Cluster S E)) (b : Cluster S E) : Prop :=
  ∃ a, H.head? = some a ∧ Step G H a b

abbrev Run (G : Genesis E) : List (Cluster S E) → Prop :=
  History G.cluster (Next G)

theorem next_cons {G : Genesis E} {a b : Cluster S E} {H : List (Cluster S E)} :
    Next G (a :: H) b ↔ Step G (a :: H) a b := by
  simp [Next]

section Facts

omit [DecidableEq S] [Fintype S]

variable {H H' : List (Cluster S E)} {a : Cluster S E}

theorem Led.mono (hH : ∀ b ∈ H, b ∈ H') {v : S} {T : Int} {l : List E}
    (h : Led H v T l) : Led H' v T l := by
  obtain ⟨b, hb, h⟩ := h
  exact ⟨b, hH b hb, h⟩

theorem Campaigned.mono (hH : ∀ b ∈ H, b ∈ H') {v : S} {T : Int} {l : List E}
    (h : Campaigned H v T l) : Campaigned H' v T l := by
  obtain ⟨b, hb, h⟩ := h
  exact ⟨b, hH b hb, h⟩

theorem Voted.mono (hH : ∀ b ∈ H, b ∈ H') {v c : S} {T : Int}
    (h : Voted H v T c) : Voted H' v T c := by
  obtain ⟨b, hb, h⟩ := h
  exact ⟨b, hH b hb, h⟩

theorem Held.mono (hH : ∀ b ∈ H, b ∈ H') {v : S} {T : Int} {k : Nat} {e : E}
    (h : Held H v T k e) : Held H' v T k e := by
  obtain ⟨b, hb, h⟩ := h
  exact ⟨b, hH b hb, h⟩

theorem led_cons {v : S} {T : Int} {l : List E} :
    Led (a :: H) v T l ↔
      ((a.node v).role = .leader ∧ (a.node v).term = T ∧ (a.node v).log = l) ∨
        Led H v T l := by
  simp [Led]

theorem campaigned_cons {v : S} {T : Int} {l : List E} :
    Campaigned (a :: H) v T l ↔
      ((a.node v).role = .candidate ∧ (a.node v).term = T ∧ (a.node v).log = l) ∨
        Campaigned H v T l := by
  simp [Campaigned]

theorem voted_cons {v c : S} {T : Int} :
    Voted (a :: H) v T c ↔
      ((a.node v).term = T ∧ (a.node v).vote = some c) ∨ Voted H v T c := by
  simp [Voted]

theorem held_cons {v : S} {T : Int} {k : Nat} {e : E} :
    Held (a :: H) v T k e ↔
      ((a.node v).term = T ∧ (a.node v).log[k]? = some e) ∨ Held H v T k e := by
  simp [Held]

theorem not_led_start {G : Genesis E} {v : S} {T : Int} {l : List E} :
    ¬ Led [G.cluster] v T l := by
  simp [Led, Genesis.cluster]

theorem not_campaigned_start {G : Genesis E} {v : S} {T : Int} {l : List E} :
    ¬ Campaigned [G.cluster] v T l := by
  simp [Campaigned, Genesis.cluster]

end Facts

section Steps

variable {G : Genesis E} {H : List (Cluster S E)} {a b : Cluster S E}

/-- A step leaves a node alone or moves it. -/
theorem Step.node (st : Step G H a b) (w : S) :
    b.node w = a.node w ∨ ∃ g, Move G H a w (b.node w) g := by
  obtain ⟨v, x, g, hm, rfl⟩ := st
  by_cases hw : w = v
  · subst hw
    refine Or.inr ⟨g, ?_⟩
    simpa [Cluster.apply] using hm
  · exact Or.inl (by simp [Cluster.apply, hw])

theorem Step.term_le (st : Step G H a b) (w : S) :
    (a.node w).term ≤ (b.node w).term := by
  rcases st.node w with h | ⟨g, hm⟩
  · rw [h]
  · generalize b.node w = x at hm
    cases hm with
    | advance T hT => exact Int.le_of_lt hT
    | campaign _ => simp only; omega
    | waste _ _ | grant _ _ _ _ _ _ | elect _ _ _ _ | extend _ _ _ | follow _ _ _ _
    | adopt _ _ _ _ _ _ => exact Int.le_refl _

/-- Within a term a vote is never changed. -/
theorem Step.vote_kept (st : Step G H a b) (w : S) {c : S}
    (ht : (b.node w).term = (a.node w).term) (hv : (a.node w).vote = some c) :
    (b.node w).vote = some c := by
  rcases st.node w with h | ⟨g, hm⟩
  · rwa [h]
  · generalize b.node w = x at hm ht
    cases hm with
    | advance T hT => simp only at ht; omega
    | campaign _ => simp only at ht; omega
    | waste c' hn => rw [hn] at hv; cases hv
    | grant c' l _ _ hg _ =>
        rcases hg with hn | hs
        · rw [hn] at hv; cases hv
        · rw [hs] at hv; exact hv
    | elect _ _ _ _ | extend _ _ _ | follow _ _ _ _ | adopt _ _ _ _ _ _ => exact hv

theorem Step.grant_cases (st : Step G H a b) {w c : S} {T : Int}
    (hg : b.grant w T c) :
    a.grant w T c ∨
      (T = (a.node w).term ∧ (b.node w).term = T ∧ (b.node w).vote = some c ∧
        (b.node w).log = (a.node w).log ∧
        ∃ l, Campaigned H c T l ∧ G.UpToDate l (a.node w).log) := by
  obtain ⟨v, x, g, hm, rfl⟩ := st
  rcases hg with hg | ⟨rfl, rfl, rfl⟩
  · exact Or.inl hg
  · cases hm with
    | grant _ l _ hc _ hu =>
        exact Or.inr ⟨rfl, by simp [Cluster.apply], by simp [Cluster.apply],
          by simp [Cluster.apply], l, hc, hu⟩

theorem Step.grant_mono (st : Step G H a b) {w c : S} {T : Int}
    (hg : a.grant w T c) : b.grant w T c := by
  obtain ⟨v, x, g, _, rfl⟩ := st
  exact Or.inl hg

/-- A node that is not a follower has voted for itself. -/
theorem Step.self_vote (st : Step G H a b) (w : S)
    (ha : (a.node w).role ≠ .follower → (a.node w).vote = some w) :
    (b.node w).role ≠ .follower → (b.node w).vote = some w := by
  rcases st.node w with h | ⟨g, hm⟩
  · rwa [h]
  · intro hr
    generalize b.node w = x at hm hr
    cases hm with
    | advance T hT => exact absurd rfl hr
    | campaign _ => rfl
    | waste c hn => rw [ha hr] at hn; cases hn
    | grant c l hc _ hg _ =>
        rw [ha hr] at hg
        rcases hg with hn | hs
        · cases hn
        · exact absurd (Option.some.inj hs).symm hc
    | elect Q hc _ _ => exact ha (by rw [hc]; decide)
    | extend e hl _ => exact ha (by rw [hl]; decide)
    | follow u l _ _ => exact absurd rfl hr
    | adopt u l _ _ hf _ => exact absurd hf hr

/-- How a node comes to lead: it led before, or it is elected. -/
theorem Step.leader_cases (st : Step G H a b) {w : S}
    (hb : (b.node w).role = .leader) :
    (b.node w).term = (a.node w).term ∧
      ((a.node w).role = .leader ∨
        ((a.node w).role = .candidate ∧ (b.node w).log = (a.node w).log ∧
          ∃ Q, IsMajority Q ∧ ∀ u ∈ Q, u = w ∨ a.grant u (a.node w).term w)) := by
  rcases st.node w with h | ⟨g, hm⟩
  · rw [h] at hb ⊢
    exact ⟨rfl, Or.inl hb⟩
  · generalize b.node w = x at hm hb ⊢
    cases hm with
    | advance _ _ | campaign _ | follow _ _ _ _ => cases hb
    | waste _ _ | grant _ _ _ _ _ _ | extend _ _ _ => exact ⟨rfl, Or.inl hb⟩
    | elect Q hc hQ hg => exact ⟨rfl, Or.inr ⟨hc, rfl, Q, hQ, hg⟩⟩
    | adopt _ _ _ _ hf _ => rw [hf] at hb; cases hb

/-- How a node comes to be a candidate: it was one, or it starts to stand. -/
theorem Step.candidate_cases (st : Step G H a b) {w : S}
    (hb : (b.node w).role = .candidate) :
    (b.node w).log = (a.node w).log ∧
      (((b.node w).term = (a.node w).term ∧ (a.node w).role = .candidate) ∨
        (b.node w).term = (a.node w).term + 1) := by
  rcases st.node w with h | ⟨g, hm⟩
  · rw [h] at hb ⊢
    exact ⟨rfl, Or.inl ⟨rfl, hb⟩⟩
  · generalize b.node w = x at hm hb ⊢
    cases hm with
    | advance _ _ | elect _ _ _ _ | follow _ _ _ _ => cases hb
    | campaign _ => exact ⟨rfl, Or.inr rfl⟩
    | waste _ _ | grant _ _ _ _ _ _ => exact ⟨rfl, Or.inl ⟨rfl, hb⟩⟩
    | extend _ hl _ => rw [hl] at hb; cases hb
    | adopt _ _ _ _ hf _ => rw [hf] at hb; cases hb

/-- How a log changes: its leader extends it, or the log of a leader of the
node's term replaces it. -/
theorem Step.log_cases (st : Step G H a b) (w : S) :
    (b.node w).log = (a.node w).log ∨
      ((b.node w).role = .leader ∧ (b.node w).term = (a.node w).term ∧
        ∃ e, G.term e = (a.node w).term ∧ (b.node w).log = (a.node w).log ++ [e]) ∨
      ((b.node w).role = .follower ∧ (b.node w).term = (a.node w).term ∧
        ∃ u, Led H u (a.node w).term (b.node w).log ∧
          ¬ (b.node w).log <+: (a.node w).log) := by
  rcases st.node w with h | ⟨g, hm⟩
  · exact Or.inl (by rw [h])
  · generalize b.node w = x at hm ⊢
    cases hm with
    | advance _ _ | campaign _ | waste _ _ | grant _ _ _ _ _ _ | elect _ _ _ _
    | follow _ _ _ _ => exact Or.inl rfl
    | extend e hl he => exact Or.inr (Or.inl ⟨hl, rfl, e, he, rfl⟩)
    | adopt u l _ hu hf hn => exact Or.inr (Or.inr ⟨hf, rfl, u, hu, hn⟩)

/-- A leader that keeps its term keeps leading, unless another node led it. -/
theorem Step.leader_stays (st : Step G H a b) {w : S}
    (ha : (a.node w).role = .leader) (ht : (b.node w).term = (a.node w).term) :
    (b.node w).role = .leader ∨ ∃ u l, u ≠ w ∧ Led H u (a.node w).term l := by
  rcases st.node w with h | ⟨g, hm⟩
  · exact Or.inl (by rwa [h])
  · generalize b.node w = x at hm ht ⊢
    cases hm with
    | advance T hT => simp only at ht; omega
    | campaign hn => exact absurd ha hn
    | waste _ _ | grant _ _ _ _ _ _ | extend _ _ _ => exact Or.inl ha
    | elect _ _ _ _ => exact Or.inl rfl
    | follow u l hu hl => exact Or.inr ⟨u, l, hu, hl⟩
    | adopt _ _ _ _ hf _ => rw [hf] at ha; cases ha

end Steps

end TermLog
