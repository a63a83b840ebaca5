import DistributedLabs.Library.TermLogMatching

/-!
Entries written over a log from a position on. The log is kept as long as it holds entries
of the same terms; from the first position where it ends or holds another term the new
entries replace it. So entries that are there already change nothing, and a log that has
taken the entries once has them all.
-/

namespace TermLog

section Splice

variable {E τ : Type} {term : E → τ} {l m es : List E} {k : Nat} {e : E}

/-- The log has an entry of the term of `e` at position `k`. -/
def HasTerm (term : E → τ) (l : List E) (k : Nat) (e : E) : Prop :=
  l[k]?.map term = some (term e)

/-- The log has the terms of the entries at the positions from `k` on. -/
def HasTerms (term : E → τ) (l : List E) (k : Nat) (es : List E) : Prop :=
  ∀ j e, es[j]? = some e → HasTerm term l (k + j) e

theorem hasTerms_cons :
    HasTerms term l k (e :: es) ↔ HasTerm term l k e ∧ HasTerms term l (k + 1) es := by
  constructor
  · intro h
    refine ⟨h 0 e rfl, ?_⟩
    intro j x hx
    rw [Nat.add_right_comm]
    exact h (j + 1) x hx
  · rintro ⟨h0, h⟩ j x hx
    cases j with
    | zero =>
        obtain rfl := Option.some.inj hx
        exact h0
    | succ j =>
        rw [← Nat.add_assoc, Nat.add_right_comm]
        exact h j x hx

theorem HasTerm.lt_length (h : HasTerm term l k e) : k < l.length := by
  obtain ⟨x, hx, _⟩ := Option.map_eq_some_iff.mp h
  exact (List.getElem?_eq_some_iff.mp hx).1

/-- A log that starts with `m` has every tail of `m`. -/
theorem hasTerms_drop_of_isPrefix (h : m <+: l) (k : Nat) : HasTerms term l k (m.drop k) := by
  intro j e he
  rw [List.getElem?_drop] at he
  rw [HasTerm, getElem?_of_isPrefix h he]
  rfl

variable [DecidableEq τ]

instance (l : List E) (k : Nat) (e : E) : Decidable (HasTerm term l k e) :=
  inferInstanceAs (Decidable (_ = _))

/-- Writes the entries over the log from position `k` on. -/
def splice (term : E → τ) (l : List E) : Nat → List E → List E
  | _, [] => l
  | k, e :: rest =>
      if HasTerm term l k e then splice term l (k + 1) rest else l.take k ++ e :: rest

/-- Entries whose terms the log has are passed over. -/
theorem splice_append (h : HasTerms term l k es) (rest : List E) :
    splice term l k (es ++ rest) = splice term l (k + es.length) rest := by
  induction es generalizing k with
  | nil => rfl
  | cons e es ih =>
      obtain ⟨h0, h⟩ := hasTerms_cons.mp h
      rw [List.cons_append, splice, if_pos h0, ih h, List.length_cons, Nat.add_right_comm,
        Nat.add_assoc]

theorem splice_of_hasTerms (h : HasTerms term l k es) : splice term l k es = l := by
  have happ := splice_append h []
  rwa [List.append_nil] at happ

/-- The cut is at the first entry whose term the log does not have. -/
theorem splice_cut (h : HasTerms term l k es) (he : ¬ HasTerm term l (k + es.length) e)
    (rest : List E) :
    splice term l k (es ++ e :: rest) = l.take (k + es.length) ++ e :: rest := by
  rw [splice_append h, splice, if_neg he]

/-- Below `k` nothing changes. -/
theorem take_splice (term : E → τ) (es : List E) (hk : k ≤ l.length) :
    (splice term l k es).take k = l.take k := by
  induction es generalizing k with
  | nil => rfl
  | cons e es ih =>
      rw [splice]
      split
      · rename_i h
        have hnext := congrArg (List.take k) (ih h.lt_length)
        simpa only [List.take_take, Nat.min_eq_left (Nat.le_succ k)] using hnext
      · rw [List.take_append_of_le_length (by simp [hk]), List.take_take, Nat.min_self]

theorem getElem?_splice_of_lt (term : E → τ) (es : List E) {i : Nat} (hk : k ≤ l.length)
    (hi : i < k) : (splice term l k es)[i]? = l[i]? := by
  have h := congrArg (·[i]?) (take_splice term es hk)
  simpa only [List.getElem?_take, hi, if_true] using h

/-- Once written, the entries' terms are there. -/
theorem hasTerms_splice (hk : k ≤ l.length) : HasTerms term (splice term l k es) k es := by
  induction es generalizing k with
  | nil =>
      intro j e h
      cases h
  | cons e es ih =>
      rw [splice]
      split
      · rename_i h
        refine hasTerms_cons.mpr ⟨?_, ih h.lt_length⟩
        rw [HasTerm, getElem?_splice_of_lt term es h.lt_length (Nat.lt_succ_self k)]
        exact h
      · intro j x hx
        have hlen : (l.take k).length = k := by simp [hk]
        rw [HasTerm, List.getElem?_append_right (by omega), hlen, Nat.add_sub_cancel_left, hx]
        rfl

/-- Writing the entries a second time changes nothing. -/
theorem splice_splice (hk : k ≤ l.length) :
    splice term (splice term l k es) k es = splice term l k es :=
  splice_of_hasTerms (hasTerms_splice hk)

/-- What holds of the log's entries at their positions and of the new entries at theirs
holds of the result. -/
theorem splice_rule {P : Nat → E → Prop} (hl : ∀ i x, l[i]? = some x → P i x)
    (hes : ∀ j x, es[j]? = some x → P (k + j) x) (hk : k ≤ l.length) :
    ∀ i x, (splice term l k es)[i]? = some x → P i x := by
  induction es generalizing k with
  | nil => exact hl
  | cons e es ih =>
      rw [splice]
      split
      · rename_i h
        refine ih ?_ h.lt_length
        intro j x hx
        rw [Nat.add_assoc, Nat.add_comm 1 j]
        exact hes (j + 1) x hx
      · intro i x hx
        have hlen : (l.take k).length = k := by simp [hk]
        rcases Nat.lt_or_ge i k with hik | hik
        · rw [List.getElem?_append_left (by omega), List.getElem?_take, if_pos hik] at hx
          exact hl i x hx
        · rw [List.getElem?_append_right (by omega), hlen] at hx
          have hP := hes (i - k) x hx
          rwa [Nat.add_sub_cancel' hik] at hP

/-- The tail of `m`, written over a log that agrees with `m` below it and shares the past of
every entry it has the term of: the log becomes `m` unless it starts with `m`. -/
theorem splice_drop
    (hm : ∀ i x y, l[i]? = some x → m[i]? = some y → term x = term y →
      l.take (i + 1) = m.take (i + 1))
    (hk : k ≤ m.length) (hlm : l.take k = m.take k) :
    (m <+: l ∧ splice term l k (m.drop k) = l) ∨
      (¬ m <+: l ∧ splice term l k (m.drop k) = m) := by
  induction hd : m.length - k generalizing k with
  | zero =>
      have hkm : k = m.length := by omega
      subst hkm
      rw [List.take_length] at hlm
      left
      refine ⟨?_, by rw [List.drop_length, splice]⟩
      rw [← hlm]
      exact List.take_prefix _ _
  | succ d ih =>
      have hlt : k < m.length := by omega
      have hmk : m[k]? = some m[k] := List.getElem?_eq_getElem hlt
      rw [List.drop_eq_getElem_cons hlt, splice]
      split
      · rename_i h
        obtain ⟨x, hx, hterm⟩ := Option.map_eq_some_iff.mp h
        exact ih hlt (hm k x m[k] hx hmk hterm) (by omega)
      · rename_i h
        right
        refine ⟨?_, ?_⟩
        · intro hp
          apply h
          rw [HasTerm, getElem?_of_isPrefix hp hmk]
          rfl
        · rw [hlm, ← List.drop_eq_getElem_cons hlt, List.take_append_drop]

end Splice
end TermLog
