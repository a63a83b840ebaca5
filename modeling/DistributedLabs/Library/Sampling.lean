import Mathlib.Data.List.Nodup
import Mathlib.Data.List.Perm.Subperm

/-!
Drawing without repetition. A program shuffles the indices of its options with `rand.Perm`
and takes the options at the first few of them. Whatever the shuffle, what it draws is a
part of the options in some order.
-/

namespace Sampling

variable {α : Type}

/-- `options[perm[i]]` for every `i` below `k`; `none` if an index is out of range. -/
def draw (options : List α) : List Nat → Nat → Option (List α)
  | _, 0 => some []
  | [], _ + 1 => none
  | i :: perm, k + 1 =>
      match options[i]? with
      | none => none
      | some x => (draw options perm k).map (x :: ·)

variable {options l : List α} {perm : List Nat} {k : Nat}

theorem map_some_draw (h : draw options perm k = some l) :
    l.map some = (perm.take k).map (options[·]?) := by
  induction perm generalizing k l with
  | nil =>
      cases k with
      | zero =>
          cases h
          rfl
      | succ k => cases h
  | cons i perm ih =>
      cases k with
      | zero =>
          cases h
          rfl
      | succ k =>
          cases hi : options[i]? with
          | none =>
              simp only [draw, hi] at h
              cases h
          | some x =>
              simp only [draw, hi] at h
              obtain ⟨l, hl, rfl⟩ := Option.map_eq_some_iff.mp h
              rw [List.map_cons, ih hl, List.take_succ_cons, List.map_cons, hi]

/-- The indices are in range, and there are enough of them. -/
theorem exists_draw (hlt : ∀ i ∈ perm, i < options.length) (hk : k ≤ perm.length) :
    ∃ l, draw options perm k = some l := by
  induction perm generalizing k with
  | nil =>
      obtain rfl := Nat.le_zero.mp hk
      exact ⟨[], rfl⟩
  | cons i perm ih =>
      cases k with
      | zero => exact ⟨[], rfl⟩
      | succ k =>
          obtain ⟨l, hl⟩ := ih (fun j hj => hlt j (List.mem_cons_of_mem _ hj))
            (Nat.le_of_succ_le_succ hk)
          obtain ⟨x, hx⟩ : ∃ x, options[i]? = some x :=
            ⟨_, List.getElem?_eq_getElem (hlt i List.mem_cons_self)⟩
          exact ⟨x :: l, by simp only [draw, hx, hl, Option.map_some]⟩

theorem range_map_getElem? (options : List α) :
    (List.range options.length).map (options[·]?) = options.map some := by
  apply List.ext_getElem
  · simp
  · intro i hi _
    rw [List.length_map, List.length_range] at hi
    simp [hi]

/-- What a shuffle draws is a part of the options. -/
theorem subperm_of_draw (hperm : perm.Perm (List.range options.length))
    (h : draw options perm k = some l) : l.Subperm options := by
  rw [← List.map_subperm_map_iff (fun _ _ => Option.some.inj), map_some_draw h,
    ← range_map_getElem?]
  have hsub : ((perm.take k).map (options[·]?)).Sublist (perm.map (options[·]?)) :=
    (List.take_sublist k perm).map _
  exact hsub.subperm.trans (hperm.map _).subperm

theorem length_draw (hk : k ≤ perm.length) (h : draw options perm k = some l) :
    l.length = k := by
  have hlen := congrArg List.length (map_some_draw h)
  rw [List.length_map, List.length_map, List.length_take] at hlen
  omega

/-- A shuffle of all the options draws as many as it is asked for. -/
theorem draw_shuffled (hperm : perm.Perm (List.range options.length))
    (hk : k ≤ options.length) :
    ∃ l, draw options perm k = some l ∧ l.Subperm options ∧ l.length = k := by
  have hlen : perm.length = options.length := by rw [hperm.length_eq, List.length_range]
  have hlt : ∀ i ∈ perm, i < options.length := fun i hi =>
    List.mem_range.mp (hperm.mem_iff.mp hi)
  obtain ⟨l, hl⟩ := exists_draw hlt (hlen ▸ hk)
  exact ⟨l, hl, subperm_of_draw hperm hl, length_draw (by omega) hl⟩

/-- What is left when some of the options are ruled out. -/
theorem length_filter_add [DecidableEq α] {p : α → Bool} (hn : options.Nodup) (hl : l.Nodup)
    (hsub : l ⊆ options) (hp : ∀ x, p x = true ↔ x ∉ l) :
    l.length + (options.filter p).length = options.length := by
  have hperm : (l ++ options.diff l).Perm options :=
    List.subperm_append_diff_self_of_count_le
      fun x _ => (hl.subperm hsub).count_le x
  have hfilter : options.filter p = options.filter (· ∉ l) := by
    apply List.filter_congr
    intro x _
    rw [Bool.eq_iff_iff, hp x, decide_eq_true_iff]
  rw [hfilter, ← List.Nodup.sdiff_eq_filter hn, ← List.length_append, hperm.length_eq]

theorem nodup_of_subperm (h : l.Subperm options) (hn : options.Nodup) : l.Nodup := by
  obtain ⟨l', hperm, hsub⟩ := h
  exact hperm.nodup_iff.mp (hn.sublist hsub)

end Sampling
