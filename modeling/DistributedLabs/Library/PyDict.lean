import Mathlib.Data.List.AList

/-!
Python dictionaries and counting loops. A dictionary keeps its keys in the order in which
they were first stored. A loop `for i in range(n)` whose body may raise runs through all its
turns if no turn raises.
-/

/-- A dictionary, in insertion order. -/
abbrev PyDict (κ ν : Type) := AList (fun _ : κ => ν)

namespace PyDict

variable {κ ν : Type} {d : PyDict κ ν} {k : κ}

/-- The dictionary's entry for a key. -/
abbrev entry (k : κ) (v : ν) : Sigma fun _ : κ => ν := ⟨k, v⟩

theorem nodupKeys_append (h : k ∉ d) (v : ν) : (d.entries ++ [entry k v]).NodupKeys := by
  have hkeys : (d.entries ++ [entry k v]).keys = d.keys ++ [k] := by
    simp [List.keys, AList.keys]
  rw [List.NodupKeys, hkeys]
  refine d.keys_nodup.append (List.nodup_singleton k) ?_
  rw [List.disjoint_singleton]
  exact h

variable [DecidableEq κ]

/-- `d[k] = v`: a new key goes to the end, an old one keeps its place. -/
def set (d : PyDict κ ν) (k : κ) (v : ν) : PyDict κ ν :=
  if h : k ∈ d then d.replace k v
  else ⟨d.entries ++ [entry k v], nodupKeys_append h v⟩

theorem entries_set_of_notMem (h : k ∉ d) (v : ν) :
    (d.set k v).entries = d.entries ++ [entry k v] := by
  rw [set, dif_neg h]

theorem kreplace_append {l : List (Sigma fun _ : κ => ν)} (h : k ∉ l.keys) (v w : ν) :
    List.kreplace k w (l ++ [entry k v]) = l ++ [entry k w] := by
  induction l with
  | nil => simp [List.kreplace]
  | cons e l ih =>
      rw [List.keys_cons, List.mem_cons, not_or] at h
      have hnext := ih h.2
      simp only [List.kreplace] at hnext ⊢
      rw [List.cons_append, List.lookmap_cons, if_neg h.1, hnext]
      rfl

/-- A key that is stored twice in a row has the second value, at the end. -/
theorem entries_set_set_of_notMem (h : k ∉ d) (v w : ν) :
    ((d.set k v).set k w).entries = d.entries ++ [entry k w] := by
  have hentries := entries_set_of_notMem h v
  have hmem : k ∈ d.set k v := by
    rw [AList.mem_keys, AList.keys, hentries]
    simp [List.keys]
  rw [set, dif_pos hmem]
  show List.kreplace k w (d.set k v).entries = d.entries ++ [entry k w]
  rw [hentries, kreplace_append h v w]

end PyDict

/-- The rule for `for i in range(n)`: an invariant that every turn keeps, without raising,
holds at the end. -/
theorem List.foldlM_range_ok {ε σ : Type} {body : σ → Nat → Except ε σ} {s : σ} {n : Nat}
    (I : Nat → σ → Prop) (h0 : I 0 s)
    (hturn : ∀ i < n, ∀ t, I i t → ∃ t', body t i = .ok t' ∧ I (i + 1) t') :
    ∃ t, (List.range n).foldlM body s = .ok t ∧ I n t := by
  induction n with
  | zero => exact ⟨s, rfl, h0⟩
  | succ n ih =>
      obtain ⟨t, hloop, ht⟩ := ih fun i hi => hturn i (Nat.lt_succ_of_lt hi)
      obtain ⟨t', hbody, ht'⟩ := hturn n (Nat.lt_succ_self n) t ht
      refine ⟨t', ?_, ht'⟩
      rw [List.range_succ, List.foldlM_append, hloop]
      simp only [List.foldlM_cons, List.foldlM_nil]
      show (body t n >>= fun s => pure s) = .ok t'
      rw [hbody]
      rfl
