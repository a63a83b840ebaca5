import DistributedLabs.Library.TermLogElection

/-!
Logs of the abstract protocol. Every entry beyond the common start was put there
by the leader of its term, and the log up to it is a log that leader had; since
the logs of one term's leader are ordered by prefix, two logs that agree on the
term at a position agree up to it.
-/

namespace TermLog

section Prefix

variable {β : Type} {f g l m : List β} {k : Nat} {x : β}

theorem getElem?_of_isPrefix (h : l <+: m) (hx : l[k]? = some x) : m[k]? = some x := by
  obtain ⟨t, rfl⟩ := h
  rw [List.getElem?_append_left (List.getElem?_eq_some_iff.mp hx).1]
  exact hx

theorem getElem?_of_take_isPrefix (h : l.take (k + 1) <+: m) (hx : l[k]? = some x) :
    m[k]? = some x := by
  apply getElem?_of_isPrefix h
  rw [List.getElem?_take, if_pos (Nat.lt_succ_self k)]
  exact hx

theorem getElem?_of_isPrefix_lt (h : l <+: m) (hk : k < l.length) (hx : m[k]? = some x) :
    l[k]? = some x := by
  obtain ⟨t, rfl⟩ := h
  rwa [List.getElem?_append_left hk] at hx

theorem take_eq_of_chain (hf : f.take k <+: l) (hg : g.take k <+: m)
    (hc : l <+: m ∨ m <+: l) (hkf : k ≤ f.length) (hkg : k ≤ g.length) :
    f.take k = g.take k := by
  have hlen : (f.take k).length = (g.take k).length := by
    simp [hkf, hkg]
  rcases hc with h | h
  · exact (List.prefix_of_prefix_length_le (hf.trans h) hg hlen.le).eq_of_length hlen
  · exact (List.prefix_of_prefix_length_le hf (hg.trans h) hlen.le).eq_of_length hlen

end Prefix

open Majority

variable {S E : Type} [DecidableEq S] [Fintype S] {G : Genesis E}
variable {a b : Cluster S E} {H H' : List (Cluster S E)}

/-- `l` was some node's log. -/
def Seen (H : List (Cluster S E)) (l : List E) : Prop :=
  ∃ a ∈ H, ∃ v, (a.node v).log = l

/-- Each entry beyond the common start comes, with all below it, from a leader of
its term. -/
def Traced (G : Genesis E) (H : List (Cluster S E)) (l : List E) : Prop :=
  ∀ k e, G.log.length ≤ k → l[k]? = some e →
    ∃ u L, Led H u (G.term e) L ∧ l.take (k + 1) <+: L

omit [DecidableEq S] [Fintype S] in
theorem Led.seen {v : S} {T : Int} {l : List E} (h : Led H v T l) : Seen H l := by
  obtain ⟨a, ha, _, _, hl⟩ := h
  exact ⟨a, ha, v, hl⟩

omit [DecidableEq S] [Fintype S] in
theorem Campaigned.seen {v : S} {T : Int} {l : List E} (h : Campaigned H v T l) :
    Seen H l := by
  obtain ⟨a, ha, _, _, hl⟩ := h
  exact ⟨a, ha, v, hl⟩

omit [DecidableEq S] [Fintype S] in
theorem Traced.mono (hH : ∀ b ∈ H, b ∈ H') {l : List E} (h : Traced G H l) :
    Traced G H' l := by
  intro k e hk he
  obtain ⟨u, L, hL, hp⟩ := h k e hk he
  exact ⟨u, L, hL.mono hH, hp⟩

/-- What holds of the common start, survives a larger term and an extension by an
entry of the leader's term holds of every log at every point. -/
theorem Run.log_rule {P : Int → List E → Prop} (h0 : P G.epoch G.log)
    (hmono : ∀ T U l, T ≤ U → P T l → P U l)
    (hext : ∀ T l e, P T l → G.term e = T → P T (l ++ [e]))
    (run : Run G (a :: H)) :
    ∀ b ∈ a :: H, ∀ v, P (b.node v).term (b.node v).log := by
  refine History.head_induction
    (P := fun a H => ∀ b ∈ a :: H, ∀ v, P (b.node v).term (b.node v).log) ?_ ?_ run
  · intro b hb v
    rw [List.mem_singleton.mp hb]
    exact h0
  · intro a b H _ ih hn c hc v
    cases hc with
    | tail _ hc => exact ih c hc v
    | head =>
        have st := next_cons.mp hn
        have old := ih a List.mem_cons_self v
        have hle := st.term_le v
        rcases st.log_cases v with h | ⟨_, ht, e, he, h⟩ | ⟨_, ht, u, hu, _⟩
        · rw [h]
          exact hmono _ _ _ hle old
        · rw [h, ht]
          exact hext _ _ e old he
        · obtain ⟨c, hc, _, hct, hcl⟩ := hu
          rw [← hcl]
          exact hmono _ _ _ (by omega) (ih c hc u)

theorem Run.base_isPrefix (run : Run G (a :: H)) {l : List E} (h : Seen (a :: H) l) :
    G.log <+: l := by
  obtain ⟨b, hb, v, rfl⟩ := h
  refine run.log_rule (P := fun _ l => G.log <+: l) ?_ ?_ ?_ b hb v
  · exact List.prefix_rfl
  · intro _ _ _ _ h
    exact h
  · intro _ l e h _
    exact h.trans (List.prefix_append l [e])

/-- Terms never decrease along a log and never exceed the node's term. -/
theorem Run.sorted (run : Run G (a :: H)) {b : Cluster S E} (hb : b ∈ a :: H) (v : S) :
    (b.node v).log.Pairwise (fun x y => G.term x ≤ G.term y) ∧
      ∀ e ∈ (b.node v).log, G.term e ≤ (b.node v).term := by
  refine run.log_rule
    (P := fun T l => l.Pairwise (fun x y => G.term x ≤ G.term y) ∧
      ∀ e ∈ l, G.term e ≤ T) ?_ ?_ ?_ b hb v
  · exact ⟨G.sorted, G.bounded⟩
  · intro T U l hle h
    exact ⟨h.1, fun e he => Int.le_trans (h.2 e he) hle⟩
  · intro T l e h he
    refine ⟨?_, ?_⟩
    · rw [List.pairwise_append]
      refine ⟨h.1, List.pairwise_singleton _ _, ?_⟩
      intro x hx y hy
      rw [List.mem_singleton.mp hy, he]
      exact h.2 x hx
    · intro x hx
      rcases List.mem_append.mp hx with hx | hx
      · exact h.2 x hx
      · rw [List.mem_singleton.mp hx, he]

/-- A candidate has no entry of the term it stands for. -/
theorem Run.candidate_log (run : Run G (a :: H)) {v : S} :
    (a.node v).role = .candidate → ∀ e ∈ (a.node v).log, G.term e < (a.node v).term := by
  refine History.head_induction
    (P := fun a H => (a.node v).role = .candidate →
      ∀ e ∈ (a.node v).log, G.term e < (a.node v).term) ?_ ?_ run
  · intro hr
    cases hr
  · intro a b H run ih hn hr e he
    obtain ⟨hlog, ⟨hterm, hra⟩ | hterm⟩ := (next_cons.mp hn).candidate_cases hr
    · rw [hlog] at he
      rw [hterm]
      exact ih hra e he
    · rw [hlog] at he
      have hle := (Run.sorted run List.mem_cons_self v).2 e he
      omega

theorem Run.seen_sorted (run : Run G (a :: H)) {l : List E} (h : Seen (a :: H) l)
    {i j : Nat} {x y : E} (hij : i ≤ j) (hx : l[i]? = some x) (hy : l[j]? = some y) :
    G.term x ≤ G.term y := by
  obtain ⟨b, hb, v, rfl⟩ := h
  rcases Nat.lt_or_eq_of_le hij with hlt | rfl
  · obtain ⟨hi, rfl⟩ := List.getElem?_eq_some_iff.mp hx
    obtain ⟨hj, rfl⟩ := List.getElem?_eq_some_iff.mp hy
    exact List.pairwise_iff_getElem.mp (run.sorted hb v).1 i j hi hj hlt
  · rw [hx] at hy
    rw [Option.some.inj hy]

theorem Run.traced (run : Run G (a :: H)) {l : List E} (h : Seen (a :: H) l) :
    Traced G (a :: H) l := by
  obtain ⟨b, hb, v, rfl⟩ := h
  refine History.head_induction
    (P := fun a H => ∀ b ∈ a :: H, ∀ v, Traced G (a :: H) (b.node v).log)
    ?_ ?_ run b hb v
  · intro b hb v k e hk he
    rw [List.mem_singleton.mp hb] at he
    have := (List.getElem?_eq_some_iff.mp he).1
    simp only [Genesis.cluster] at this
    omega
  · intro a b H _ ih hn c hc v
    have up : ∀ l, Traced G (a :: H) l → Traced G (b :: a :: H) l :=
      fun l h => h.mono (fun _ => List.mem_cons_of_mem _)
    cases hc with
    | tail _ hc => exact up _ (ih c hc v)
    | head =>
        have st := next_cons.mp hn
        rcases st.log_cases v with h | ⟨hr, ht, e, he, h⟩ | ⟨_, _, u, hu, _⟩
        · rw [h]
          exact up _ (ih a List.mem_cons_self v)
        · intro k x hk hx
          have hkl := (List.getElem?_eq_some_iff.mp hx).1
          rw [h] at hx hkl ⊢
          by_cases hlt : k < (a.node v).log.length
          · rw [List.getElem?_append_left hlt] at hx
            rw [List.take_append_of_le_length (by omega)]
            exact up _ (ih a List.mem_cons_self v) k x hk hx
          · have hlast : k = (a.node v).log.length := by
              simp only [List.length_append, List.length_singleton] at hkl
              omega
            subst hlast
            rw [List.getElem?_concat_length] at hx
            obtain rfl := Option.some.inj hx
            refine ⟨v, (b.node v).log, led_cons.mpr (Or.inl ⟨hr, ?_, rfl⟩), ?_⟩
            · rw [ht, he]
            · rw [h]
              exact List.take_prefix _ _
        · obtain ⟨c, hc, _, _, hcl⟩ := hu
          rw [← hcl]
          exact up _ (ih c hc u)

/-- Two logs with entries of one term at one position agree up to it. -/
theorem Run.log_matching (run : Run G (a :: H)) {f g : List E}
    (hf : Seen (a :: H) f) (hg : Seen (a :: H) g) {k : Nat} {x y : E}
    (hx : f[k]? = some x) (hy : g[k]? = some y) (hxy : G.term x = G.term y) :
    f.take (k + 1) = g.take (k + 1) := by
  have hkf := (List.getElem?_eq_some_iff.mp hx).1
  have hkg := (List.getElem?_eq_some_iff.mp hy).1
  by_cases hk : k < G.log.length
  · have hbf := run.base_isPrefix hf
    have hbg := run.base_isPrefix hg
    have htake : ∀ l : List E, G.log <+: l → l.take (k + 1) = G.log.take (k + 1) := by
      rintro _ ⟨t, rfl⟩
      exact List.take_append_of_le_length (by omega)
    rw [htake f hbf, htake g hbg]
  · obtain ⟨u, L, hL, hpf⟩ := run.traced hf k x (by omega) hx
    obtain ⟨w, M, hM, hpg⟩ := run.traced hg k y (by omega) hy
    rw [← hxy] at hM
    exact take_eq_of_chain hpf hpg (run.led_chain hL hM) (by omega) (by omega)

/-- Moves of node `v` alone lead from the run `a :: H` to the run `a' :: H'`, in
which `v` is `x`. Along the way `v` has no log but the old and the new one. -/
structure Moves (G : Genesis E) (v : S) (a : Cluster S E) (H : List (Cluster S E))
    (x : Node S E) (a' : Cluster S E) (H' : List (Cluster S E)) : Prop where
  run : Run G (a' :: H')
  past : ∀ b ∈ a :: H, b ∈ a' :: H'
  node : a'.node = Function.update a.node v x
  grant : ∀ w T c, a.grant w T c → a'.grant w T c
  seen : ∀ l, Seen (a' :: H') l → Seen (a :: H) l ∨ l = x.log

namespace Moves

variable {v : S} {x y : Node S E} {a' : Cluster S E}

theorem refl (run : Run G (a :: H)) : Moves G v a H (a.node v) a H where
  run := run
  past := fun _ hb => hb
  node := by simp
  grant := fun _ _ _ h => h
  seen := fun _ hl => Or.inl hl

theorem self (m : Moves G v a H x a' H') : a'.node v = x := by
  simp [m.node]

theorem next (m : Moves G v a H x a' H') (hx : x.log = (a.node v).log) {g : Option S}
    (hm : Move G (a' :: H') a' v y g) :
    Moves G v a H y (a'.apply v y g) (a' :: H') where
  run := .next m.run (next_cons.mpr ⟨v, y, g, hm, rfl⟩)
  past := fun b hb => List.mem_cons_of_mem _ (m.past b hb)
  node := by simp [Cluster.apply, m.node]
  grant := fun w T c h => Or.inl (m.grant w T c h)
  seen := by
    rintro l ⟨b, hb, w, rfl⟩
    have old : Seen (a :: H) x.log := ⟨a, List.mem_cons_self, v, hx.symm⟩
    cases hb with
    | tail _ hb =>
        rcases m.seen _ ⟨b, hb, w, rfl⟩ with h | h
        · exact Or.inl h
        · exact Or.inl (h ▸ old)
    | head =>
        by_cases hw : w = v
        · subst hw
          exact Or.inr (by simp [Cluster.apply])
        · refine Or.inl ⟨a, List.mem_cons_self, w, ?_⟩
          simp [Cluster.apply, m.node, hw]

end Moves
end TermLog
