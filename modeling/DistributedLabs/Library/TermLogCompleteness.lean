import DistributedLabs.Library.TermLogMatching

/-!
Leader completeness and commitment in the abstract protocol. An entry of term
`T` that a majority held while in term `T` is in the log of every leader of a
later term. The induction over the run is on the weaker fact that the entry may
still become so held: every node of some majority held it in term `T`, or has
not left term `T` yet. That fact is only ever lost, never gained, so a majority
that completes after a later election is covered too.
-/

namespace TermLog

open Majority

variable {S E : Type} [DecidableEq S] [Fintype S] {G : Genesis E}
variable {a b : Cluster S E} {H H' : List (Cluster S E)}

/-- A majority holds, or may still come to hold, `e` at `k` in the term of `e`. -/
def Choosable (G : Genesis E) (H : List (Cluster S E)) (a : Cluster S E)
    (k : Nat) (e : E) : Prop :=
  ∃ Q : Finset S, IsMajority Q ∧
    ∀ v ∈ Q, Held H v (G.term e) k e ∨ (a.node v).term ≤ G.term e

/-- What follows for an entry that is choosable: later leaders have it, nodes
that held it have it, and so does a candidate with the grant of such a node. -/
structure Safe (G : Genesis E) (H : List (Cluster S E)) (a : Cluster S E)
    (k : Nat) (e : E) : Prop where
  leaders : ∀ u U l, G.term e < U → Led H u U l → l[k]? = some e
  holders : ∀ v, Held H v (G.term e) k e → (a.node v).log[k]? = some e
  grants : ∀ v c U l, G.term e < U → a.grant v U c → Held H v (G.term e) k e →
    Campaigned H c U l → l[k]? = some e

theorem Choosable.back (st : Step G (a :: H) a b) {k : Nat} {e : E}
    (h : Choosable G (b :: a :: H) b k e) :
    Choosable G (a :: H) a k e := by
  obtain ⟨Q, hQ, hv⟩ := h
  refine ⟨Q, hQ, ?_⟩
  intro v hvQ
  have hle := st.term_le v
  rcases hv v hvQ with hh | ht
  · rcases held_cons.mp hh with ⟨ht, _⟩ | hh
    · exact Or.inr (by omega)
    · exact Or.inl hh
  · exact Or.inr (by omega)

/-- The comparison of logs carries a safe entry from the voter to the candidate. -/
theorem Run.upToDate_carries (run : Run G (a :: H)) {k : Nat} {e : E}
    (hk : G.log.length ≤ k)
    (leaders : ∀ u U l, G.term e < U → Led (a :: H) u U l → l[k]? = some e)
    {l f : List E} (hl : Seen (a :: H) l) (hf : Seen (a :: H) f)
    (hfk : f[k]? = some e) (hu : G.UpToDate l f) : l[k]? = some e := by
  obtain ⟨x, y, hx, hy, hcmp⟩ := hu
  rw [List.getLast?_eq_getElem?] at hx hy
  have hxl := (List.getElem?_eq_some_iff.mp hx).1
  have hkf := (List.getElem?_eq_some_iff.mp hfk).1
  have hey : G.term e ≤ G.term y := run.seen_sorted hf (by omega) hfk hy
  obtain ⟨w, M, hM, hfM⟩ := run.traced hf k e hk hfk
  have hepoch : G.epoch < G.term x := by
    have := run.led_epoch hM
    rcases hcmp with h | ⟨h, _⟩ <;> omega
  have hlast : G.log.length ≤ l.length - 1 := by
    by_contra hlt
    have hbase : G.log[l.length - 1]? = some x :=
      getElem?_of_isPrefix_lt (run.base_isPrefix hl) (by omega) hx
    have := G.bounded x (List.mem_of_getElem? hbase)
    omega
  obtain ⟨u, L, hL, hlL⟩ := run.traced hl (l.length - 1) x hlast hx
  have hlpre : l <+: L := by
    rwa [show l.length - 1 + 1 = l.length by omega, List.take_length] at hlL
  by_cases hlater : G.term e < G.term x
  · have hLk := leaders u _ L hlater hL
    by_cases hkl : k < l.length
    · exact getElem?_of_isPrefix_lt hlpre hkl hLk
    · have hLx : L[l.length - 1]? = some x := getElem?_of_isPrefix hlpre hx
      have := run.seen_sorted hL.seen (show l.length - 1 ≤ k by omega) hLx hLk
      omega
  · have hterm : G.term x = G.term e := by
      rcases hcmp with h | ⟨h, _⟩ <;> omega
    have hkl : k < l.length := by
      rcases hcmp with h | ⟨_, h⟩ <;> omega
    rw [hterm] at hL
    have htake := take_eq_of_chain
      ((List.take_prefix (k + 1) l).trans hlpre) hfM (run.led_chain hL hM)
      (by omega) (by omega)
    have : (l.take (k + 1))[k]? = some e := by
      rw [htake, List.getElem?_take, if_pos (Nat.lt_succ_self k)]
      exact hfk
    rwa [List.getElem?_take, if_pos (Nat.lt_succ_self k)] at this

/-- Taking over a leader's log does not lose a safe entry. -/
theorem Run.adopt_keeps (run : Run G (a :: H)) {k : Nat} {e : E}
    (hk : G.log.length ≤ k)
    (leaders : ∀ u U l, G.term e < U → Led (a :: H) u U l → l[k]? = some e)
    {f l : List E} (hf : Seen (a :: H) f) (hfk : f[k]? = some e) {u : S} {U : Int}
    (hU : G.term e ≤ U) (hl : Led (a :: H) u U l) (hne : ¬ l <+: f) :
    l[k]? = some e := by
  rcases Int.lt_or_eq_of_le hU with hlt | rfl
  · exact leaders u U l hlt hl
  · obtain ⟨w, M, hM, hfM⟩ := run.traced hf k e hk hfk
    have hMk : M[k]? = some e := getElem?_of_take_isPrefix hfM hfk
    rcases run.led_chain hl hM with h | h
    · by_cases hkl : k < l.length
      · exact getElem?_of_isPrefix_lt h hkl hMk
      · have hkf := (List.getElem?_eq_some_iff.mp hfk).1
        have hshort : l <+: f.take (k + 1) := by
          apply List.prefix_of_prefix_length_le h hfM
          simp only [List.length_take]
          omega
        exact absurd (hshort.trans (List.take_prefix _ _)) hne
    · exact getElem?_of_isPrefix h hMk

namespace Safe

variable {k : Nat} {e : E} (old : Safe G (a :: H) a k e) (run : Run G (a :: H))
  (st : Step G (a :: H) a b)
include old run st

/-- A leader of a later term led before or has just been elected; then its majority
shares a node with the one of the entry. -/
theorem leader_step (hch : Choosable G (a :: H) a k e) {u : S}
    (hr : (b.node u).role = .leader) (hU : G.term e < (b.node u).term) :
    (b.node u).log[k]? = some e := by
  obtain ⟨hterm, hc⟩ := st.leader_cases hr
  rw [hterm] at hU
  rcases hc with hra | ⟨hra, hlog, P, hP, hPu⟩
  · have hak := old.leaders u _ _ hU (led_cons.mpr (Or.inl ⟨hra, rfl, rfl⟩))
    rcases st.log_cases u with h | ⟨_, _, x, _, h⟩ | ⟨hf, _⟩
    · rwa [h]
    · rw [h]
      exact getElem?_of_isPrefix (List.prefix_append _ _) hak
    · rw [hr] at hf
      cases hf
  · obtain ⟨Q, hQ, hQv⟩ := hch
    obtain ⟨w, hwP, hwQ⟩ := exists_mem_inter hP hQ
    have hpast : (a.node u).term ≤ (a.node w).term := by
      rcases hPu w hwP with rfl | hg
      · exact Int.le_refl _
      · exact run.voted_le (run.grant_voted hg)
    have hheld : Held (a :: H) w (G.term e) k e := by
      rcases hQv w hwQ with h | h
      · exact h
      · omega
    rw [hlog]
    rcases hPu w hwP with rfl | hg
    · exact old.holders w hheld
    · exact old.grants w u _ _ hU hg hheld (campaigned_cons.mpr (Or.inl ⟨hra, rfl, rfl⟩))

theorem holder_step (hk : G.log.length ≤ k) {v : S}
    (hv : Held (a :: H) v (G.term e) k e) : (b.node v).log[k]? = some e := by
  have hak := old.holders v hv
  rcases st.log_cases v with h | ⟨_, _, x, _, h⟩ | ⟨_, _, u, hu, hne⟩
  · rwa [h]
  · rw [h]
    exact getElem?_of_isPrefix (List.prefix_append _ _) hak
  · exact run.adopt_keeps hk old.leaders ⟨a, List.mem_cons_self, v, rfl⟩ hak
      (run.held_le hv) hu hne

/-- A grant is an old one, for a candidate that still stands with the same log, or it
has just been made on a comparison of the logs. -/
theorem grant_step (hn : Next G (a :: H) b) (hk : G.log.length ≤ k) {v c : S} {U : Int}
    {l : List E} (hU : G.term e < U) (hg : b.grant v U c)
    (hv : Held (a :: H) v (G.term e) k e) (hl : Campaigned (b :: a :: H) c U l) :
    l[k]? = some e := by
  have run' : Run G (b :: a :: H) := run.next hn
  rcases st.grant_cases hg with hga | ⟨_, _, _, _, m, hm, hu⟩
  · rcases campaigned_cons.mp hl with ⟨hr, ht, rfl⟩ | hl
    · obtain ⟨hlog, ⟨hta, hra⟩ | hta⟩ := st.candidate_cases hr
      · rw [hlog]
        exact old.grants v c U _ hU hga hv
          (campaigned_cons.mpr (Or.inl ⟨hra, hta.symm.trans ht, rfl⟩))
      · obtain ⟨m, hm⟩ := run.grant_campaigned hga
        have := run.campaigned_le hm
        omega
    · exact old.grants v c U l hU hga hv hl
  · have hmk := run.upToDate_carries hk old.leaders hm.seen
      ⟨a, List.mem_cons_self, v, rfl⟩ (old.holders v hv) hu
    rw [run'.campaigned_unique hl (hm.mono (fun _ => List.mem_cons_of_mem _))]
    exact hmk

end Safe

/-- A choosable entry beyond the common start is safe. -/
theorem Run.safe (run : Run G (a :: H)) {k : Nat} {e : E} (hk : G.log.length ≤ k) :
    Choosable G (a :: H) a k e → Safe G (a :: H) a k e := by
  refine History.head_induction
    (P := fun a H => Choosable G (a :: H) a k e → Safe G (a :: H) a k e) ?_ ?_ run
  · intro _
    refine ⟨?_, ?_, ?_⟩
    · exact fun u U l _ hl => absurd hl not_led_start
    · intro v hv
      rcases held_cons.mp hv with ⟨_, h⟩ | ⟨_, hm, _⟩
      · exact h
      · cases hm
    · intro v c U l _ hg
      cases hg
  · intro a b H (run : Run G (a :: H)) ih hn hch
    have st := next_cons.mp hn
    have run' : Run G (b :: a :: H) := run.next hn
    have hback := hch.back st
    have old := ih hback
    refine ⟨?_, ?_, ?_⟩
    · intro u U l hU hl
      rcases led_cons.mp hl with ⟨hr, rfl, rfl⟩ | hl
      · exact old.leader_step run st hback hr hU
      · exact old.leaders u U l hU hl
    · intro v hv
      rcases held_cons.mp hv with ⟨_, h⟩ | hv
      · exact h
      · exact old.holder_step run st hk hv
    · intro v c U l hU hg hv hl
      have hvb : U ≤ (b.node v).term := run'.voted_le (run'.grant_voted hg)
      have hva : Held (a :: H) v (G.term e) k e := by
        rcases held_cons.mp hv with ⟨ht, _⟩ | hv
        · omega
        · exact hv
      exact old.grant_step run st hn hk hU hg hva hl

/-- A majority held `e` at `k` while in the term of `e`. -/
def Chosen (G : Genesis E) (H : List (Cluster S E)) (k : Nat) (e : E) : Prop :=
  ∃ Q : Finset S, IsMajority Q ∧ ∀ v ∈ Q, Held H v (G.term e) k e

/-- Every leader of a later term has a chosen entry, at any time it leads. -/
theorem Run.leader_completeness (run : Run G (a :: H)) {k : Nat} {e : E}
    (hc : Chosen G (a :: H) k e) {u : S} {U : Int} {l : List E}
    (hU : G.term e < U) (hl : Led (a :: H) u U l) : l[k]? = some e := by
  obtain ⟨Q, hQ, hv⟩ := hc
  by_cases hk : G.log.length ≤ k
  · exact (run.safe hk ⟨Q, hQ, fun v h => Or.inl (hv v h)⟩).leaders u U l hU hl
  · obtain ⟨v, hvQ, _⟩ := exists_mem_inter hQ hQ
    obtain ⟨b, hb, _, hbk⟩ := hv v hvQ
    have hbase := getElem?_of_isPrefix_lt
      (run.base_isPrefix ⟨b, hb, v, rfl⟩) (by omega) hbk
    exact getElem?_of_isPrefix (run.base_isPrefix hl.seen) hbase

/-- `p` is fixed as a start of the log: it lies in the common start, or below a
chosen entry of a term up to `T`. -/
def Committed (G : Genesis E) (H : List (Cluster S E)) (T : Int) (p : List E) : Prop :=
  p <+: G.log ∨ ∃ k e u L, G.log.length ≤ k ∧ G.term e ≤ T ∧ Chosen G H k e ∧
    Led H u (G.term e) L ∧ L[k]? = some e ∧ p <+: L.take (k + 1)

omit [DecidableEq S] in
theorem Chosen.mono (hH : ∀ b ∈ H, b ∈ H') {k : Nat} {e : E} (h : Chosen G H k e) :
    Chosen G H' k e := by
  obtain ⟨Q, hQ, hv⟩ := h
  exact ⟨Q, hQ, fun v h => (hv v h).mono hH⟩

omit [DecidableEq S] in
theorem Committed.mono (hH : ∀ b ∈ H, b ∈ H') {T U : Int} (hTU : T ≤ U) {p : List E}
    (h : Committed G H T p) : Committed G H' U p := by
  rcases h with h | ⟨k, e, u, L, hk, he, hc, hL, hLk, hp⟩
  · exact Or.inl h
  · exact Or.inr ⟨k, e, u, L, hk, by omega, hc.mono hH, hL.mono hH, hLk, hp⟩

/-- A committed start and the log of a leader of no earlier term never differ. -/
theorem Run.committed_led (run : Run G (a :: H)) {T U : Int} {p l : List E}
    (hp : Committed G (a :: H) T p) (hTU : T ≤ U) {u : S} (hl : Led (a :: H) u U l) :
    p <+: l ∨ l <+: p := by
  rcases hp with hp | ⟨k, e, w, L, hk, he, hc, hL, hLk, hp⟩
  · exact Or.inl (hp.trans (run.base_isPrefix hl.seen))
  · rcases Int.lt_or_eq_of_le (Int.le_trans he hTU) with hlt | heq
    · have hlk := run.leader_completeness hc hlt hl
      have htake := run.log_matching hL.seen hl.seen hLk hlk rfl
      rw [htake] at hp
      exact Or.inl (hp.trans (List.take_prefix _ _))
    · rw [heq] at hL
      have hpL := hp.trans (List.take_prefix (k + 1) L)
      rcases run.led_chain hL hl with h | h
      · exact Or.inl (hpL.trans h)
      · exact List.prefix_or_prefix_of_prefix hpL h

/-- Two committed starts never differ. -/
theorem Run.committed_chain (run : Run G (a :: H)) {T U : Int} {p q : List E}
    (hp : Committed G (a :: H) T p) (hq : Committed G (a :: H) U q) :
    p <+: q ∨ q <+: p := by
  have below : ∀ {T U : Int} {p q : List E}, T ≤ U → Committed G (a :: H) T p →
      (∃ k e u L, G.term e = U ∧ Led (a :: H) u (G.term e) L ∧
        q <+: L.take (k + 1)) → p <+: q ∨ q <+: p := by
    rintro T U p q hTU hp ⟨k, e, u, L, rfl, hL, hq⟩
    have hqL := hq.trans (List.take_prefix (k + 1) L)
    rcases run.committed_led hp hTU hL with h | h
    · exact List.prefix_or_prefix_of_prefix h hqL
    · exact Or.inr (hqL.trans h)
  rcases hp with hp | ⟨k, e, u, L, hk, he, hc, hL, hLk, hpL⟩
  · rcases hq with hq | ⟨k, e, u, L, hk, he, hc, hL, hLk, hqL⟩
    · exact List.prefix_or_prefix_of_prefix hp hq
    · have hbase := run.base_isPrefix hL.seen
      exact List.prefix_or_prefix_of_prefix (hp.trans hbase)
        (hqL.trans (List.take_prefix _ _))
  · rcases hq with hq | ⟨k', e', u', L', hk', he', hc', hL', hLk', hqL⟩
    · have hbase := run.base_isPrefix hL.seen
      exact List.prefix_or_prefix_of_prefix (hpL.trans (List.take_prefix _ _))
        (hq.trans hbase)
    · rcases Int.le_total (G.term e) (G.term e') with hle | hle
      · exact below hle (Or.inr ⟨k, e, u, L, hk, Int.le_refl _, hc, hL, hLk, hpL⟩)
          ⟨k', e', u', L', rfl, hL', hqL⟩
      · exact (below hle
          (Or.inr ⟨k', e', u', L', hk', Int.le_refl _, hc', hL', hLk', hqL⟩)
          ⟨k, e, u, L, rfl, hL, hpL⟩).symm

end TermLog
