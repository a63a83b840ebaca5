import Mathlib.Data.List.AList

/-!
Go maps as association lists with distinct keys. `range` over a map yields its
items in some order; a loop that stores what it ranges over is `insertAll`.
-/

/-- A map with comparable keys. -/
abbrev GoMap (κ ν : Type) := AList (fun _ : κ => ν)

namespace GoMap

variable {κ ν : Type}

/-- The pairs that `range` yields. -/
def items (m : GoMap κ ν) : List (κ × ν) := m.entries.map fun e => (e.1, e.2)

theorem items_keys (m : GoMap κ ν) : (items m).map Prod.fst = m.keys := by
  simp [items, AList.keys, List.keys]

theorem nodup_items (m : GoMap κ ν) : ((items m).map Prod.fst).Nodup := by
  rw [items_keys]
  exact m.keys_nodup

variable [DecidableEq κ]

theorem mem_items {m : GoMap κ ν} {k : κ} {v : ν} :
    (k, v) ∈ items m ↔ m.lookup k = some v := by
  rw [← Option.mem_def, AList.mem_lookup_iff]
  constructor
  · intro h
    obtain ⟨⟨a, b⟩, hmem, heq⟩ := List.mem_map.mp h
    cases heq
    exact hmem
  · intro h
    exact List.mem_map.mpr ⟨⟨k, v⟩, h, rfl⟩

theorem lookup_insert_iff {m : GoMap κ ν} {k other : κ} {v w : ν} :
    (m.insert k v).lookup other = some w ↔
      (other = k ∧ w = v) ∨ (other ≠ k ∧ m.lookup other = some w) := by
  by_cases heq : other = k
  · subst heq
    simp [eq_comm]
  · rw [AList.lookup_insert_ne heq]
    simp [heq]

theorem lookup_erase_iff {m : GoMap κ ν} {k other : κ} {w : ν} :
    (m.erase k).lookup other = some w ↔ other ≠ k ∧ m.lookup other = some w := by
  by_cases heq : other = k
  · subst heq
    simp
  · rw [AList.lookup_erase_ne heq]
    simp [heq]

theorem lookup_singleton {a k : κ} {b v : ν} :
    (AList.singleton a b : GoMap κ ν).lookup k = some v ↔ k = a ∧ v = b := by
  rw [← mem_items]
  have hitems : items (AList.singleton a b : GoMap κ ν) = [(a, b)] := rfl
  rw [hitems, List.mem_singleton, Prod.mk.injEq]

/-- Stores the pairs one after the other. -/
def insertAll (m : GoMap κ ν) (l : List (κ × ν)) : GoMap κ ν :=
  l.foldl (fun m e => m.insert e.1 e.2) m

@[simp] theorem insertAll_nil (m : GoMap κ ν) : insertAll m [] = m := rfl

@[simp] theorem insertAll_cons (m : GoMap κ ν) (e : κ × ν) (l : List (κ × ν)) :
    insertAll m (e :: l) = insertAll (m.insert e.1 e.2) l := rfl

theorem lookup_insertAll_notMem {m : GoMap κ ν} {l : List (κ × ν)} {k : κ}
    (h : k ∉ l.map Prod.fst) : (insertAll m l).lookup k = m.lookup k := by
  induction l generalizing m with
  | nil => rfl
  | cons e l ih =>
      rw [List.map_cons, List.mem_cons, not_or] at h
      rw [insertAll_cons, ih h.2, AList.lookup_insert_ne h.1]

theorem lookup_insertAll_mem {m : GoMap κ ν} {l : List (κ × ν)} {k : κ} {v : ν}
    (hl : (l.map Prod.fst).Nodup) (h : (k, v) ∈ l) : (insertAll m l).lookup k = some v := by
  induction l generalizing m with
  | nil => cases h
  | cons e l ih =>
      rw [List.map_cons, List.nodup_cons] at hl
      rw [insertAll_cons]
      cases h with
      | head => rw [lookup_insertAll_notMem hl.1, AList.lookup_insert]
      | tail _ h => exact ih hl.2 h

theorem mem_insertAll {m : GoMap κ ν} {l : List (κ × ν)} {k : κ} :
    k ∈ insertAll m l ↔ k ∈ l.map Prod.fst ∨ k ∈ m := by
  induction l generalizing m with
  | nil => simp
  | cons e l ih =>
      rw [insertAll_cons, ih, AList.mem_insert, List.map_cons, List.mem_cons]
      constructor
      · rintro (h | rfl | h)
        · exact Or.inl (Or.inr h)
        · exact Or.inl (Or.inl rfl)
        · exact Or.inr h
      · rintro ((rfl | h) | h)
        · exact Or.inr (Or.inl rfl)
        · exact Or.inl h
        · exact Or.inr (Or.inr h)

/-- What a key holds after the loop: the pair ranged over, or what it held before. -/
theorem lookup_insertAll_iff {m : GoMap κ ν} {l : List (κ × ν)} {k : κ} {v : ν}
    (hl : (l.map Prod.fst).Nodup) : (insertAll m l).lookup k = some v ↔
      (k, v) ∈ l ∨ k ∉ l.map Prod.fst ∧ m.lookup k = some v := by
  by_cases hk : k ∈ l.map Prod.fst
  · obtain ⟨⟨k', v'⟩, hmem, rfl⟩ := List.mem_map.mp hk
    rw [lookup_insertAll_mem hl hmem]
    constructor
    · intro h
      obtain rfl := Option.some.inj h
      exact Or.inl hmem
    · rintro (h | ⟨h, _⟩)
      · rw [← lookup_insertAll_mem (m := m) hl hmem, lookup_insertAll_mem hl h]
      · exact absurd hk h
  · rw [lookup_insertAll_notMem hk]
    constructor
    · exact fun h => Or.inr ⟨hk, h⟩
    · rintro (h | ⟨_, h⟩)
      · exact absurd (List.mem_map.mpr ⟨_, h, rfl⟩) hk
      · exact h

/-- What a key holds after a loop that stores one value under many keys. -/
theorem lookup_insertAll_const {m : GoMap κ ν} {l : List κ} {v : ν} {k : κ} :
    (insertAll m (l.map fun k => (k, v))).lookup k =
      if k ∈ l then some v else m.lookup k := by
  induction l generalizing m with
  | nil => rfl
  | cons a l ih =>
      rw [List.map_cons, insertAll_cons, ih]
      rcases eq_or_ne k a with rfl | hne
      · rw [AList.lookup_insert, if_pos List.mem_cons_self, ite_self]
      · rw [AList.lookup_insert_ne hne]
        simp only [List.mem_cons, hne, false_or]

/-- What a key holds after a loop that deletes the keys of some pairs. -/
theorem lookup_foldl_erase {m : GoMap κ ν} {l : List (κ × ν)} {p : κ × ν → Bool} {k : κ} :
    (l.foldl (fun m e => if p e then m.erase e.1 else m) m).lookup k =
      if ∃ e ∈ l, e.1 = k ∧ p e = true then none else m.lookup k := by
  induction l generalizing m with
  | nil => simp
  | cons e l ih =>
      rw [List.foldl_cons, ih]
      simp only [List.exists_mem_cons_iff]
      by_cases hl : ∃ e ∈ l, e.1 = k ∧ p e = true
      · rw [if_pos hl, if_pos (Or.inr hl)]
      · rw [if_neg hl]
        by_cases hp : p e = true
        · rw [if_pos hp]
          by_cases hk : e.1 = k
          · rw [if_pos (Or.inl ⟨hk, hp⟩), ← hk, AList.lookup_erase]
          · rw [if_neg (not_or.mpr ⟨fun h => hk h.1, hl⟩), AList.lookup_erase_ne (Ne.symm hk)]
        · rw [if_neg hp, if_neg (not_or.mpr ⟨fun h => hp h.2, hl⟩)]

end GoMap
