import Mathlib.Data.List.Basic
import Mathlib.Data.List.Sort

/-!
Go's checked slice expressions over lists. Indices are signed, as Go's `int`
is; an expression outside its range has no value, where Go panics. The upper
bound of a slice is checked against the length, where Go checks the capacity: an
expression that has a value here has the same one in Go, and one that has none
because of its upper bound may in Go reach into the spare capacity instead.
-/

namespace GoSlice

variable {β : Type}

/-- `l[i]`. -/
def get (l : List β) (i : Int) : Option β :=
  if 0 ≤ i then l[i.toNat]? else none

/-- `l[lo:]`. -/
def sliceFrom (l : List β) (lo : Int) : Option (List β) :=
  if 0 ≤ lo ∧ lo ≤ l.length then some (l.drop lo.toNat) else none

/-- `l[:hi]`. -/
def sliceTo (l : List β) (hi : Int) : Option (List β) :=
  if 0 ≤ hi ∧ hi ≤ l.length then some (l.take hi.toNat) else none

/-- `l[lo:hi]`. -/
def slice (l : List β) (lo hi : Int) : Option (List β) :=
  if 0 ≤ lo ∧ lo ≤ hi ∧ hi ≤ l.length then
    some ((l.take hi.toNat).drop lo.toNat)
  else none

@[simp] theorem get_natCast (l : List β) (k : Nat) : get l (k : Int) = l[k]? := by
  simp [get]

@[simp] theorem get_zero (l : List β) : get l 0 = l[0]? := by
  simp [get]

theorem get_eq_some {l : List β} {i : Int} {x : β} (h : get l i = some x) :
    ∃ k : Nat, i = k ∧ l[k]? = some x := by
  unfold get at h
  split at h
  · rename_i hi
    exact ⟨i.toNat, (Int.toNat_of_nonneg hi).symm, h⟩
  · cases h

theorem sliceFrom_eq_some {l m : List β} {lo : Int} (h : sliceFrom l lo = some m) :
    ∃ k : Nat, lo = k ∧ k ≤ l.length ∧ m = l.drop k := by
  unfold sliceFrom at h
  split at h
  · rename_i hlo
    refine ⟨lo.toNat, (Int.toNat_of_nonneg hlo.1).symm, by omega, ?_⟩
    exact (Option.some.inj h).symm
  · cases h

theorem sliceFrom_natCast (l : List β) {k : Nat} (hk : k ≤ l.length) :
    sliceFrom l (k : Int) = some (l.drop k) := by
  simp [sliceFrom, hk]

theorem sliceTo_natCast (l : List β) {k : Nat} (hk : k ≤ l.length) :
    sliceTo l (k : Int) = some (l.take k) := by
  simp [sliceTo, hk]

/-- The elements of a slice sit at their old positions, shifted by its start. -/
theorem slice_getElem {l m : List β} {lo hi : Int} (h : slice l lo hi = some m)
    {j : Nat} {x : β} (hx : m[j]? = some x) :
    ∃ k : Nat, (k : Int) = lo + j ∧ (k : Int) < hi ∧ l[k]? = some x := by
  unfold slice at h
  split at h
  · rename_i hr
    obtain rfl := Option.some.inj h
    rw [List.getElem?_drop, List.getElem?_take] at hx
    split at hx
    · exact ⟨lo.toNat + j, by omega, by omega, hx⟩
    · cases hx
  · cases h

theorem slice_length {l m : List β} {lo hi : Int} (h : slice l lo hi = some m) :
    (m.length : Int) = hi - lo := by
  unfold slice at h
  split at h
  · rename_i hr
    obtain rfl := Option.some.inj h
    rw [List.length_drop, List.length_take]
    omega
  · cases h

theorem slice_isSome {l : List β} {lo hi : Int} (h0 : 0 ≤ lo) (h1 : lo ≤ hi)
    (h2 : hi ≤ l.length) : ∃ m, slice l lo hi = some m := by
  simp [slice, h0, h1, h2]

/-- A loop whose body may panic: every result comes from one turn. -/
theorem mapM_mem {γ : Type} {f : β → Option γ} {l : List β} {r : List γ}
    (h : l.mapM f = some r) : ∀ c ∈ r, ∃ i ∈ l, f i = some c := by
  induction l generalizing r with
  | nil =>
      obtain rfl : [] = r := by simpa using h
      intro c hc
      cases hc
  | cons i l ih =>
      simp only [List.mapM_cons, Option.pure_def, Option.bind_eq_bind,
        Option.bind_eq_some_iff] at h
      obtain ⟨x, hx, xs, hxs, hr⟩ := h
      obtain rfl := Option.some.inj hr
      intro c hc
      cases hc with
      | head => exact ⟨i, List.mem_cons_self, hx⟩
      | tail _ hc =>
          obtain ⟨j, hj, hjc⟩ := ih hxs c hc
          exact ⟨j, List.mem_cons_of_mem _ hj, hjc⟩

theorem exists_of_mapM {γ : Type} {f : β → Option γ} {l : List β} {r : List γ}
    (h : l.mapM f = some r) : ∀ i ∈ l, ∃ c, f i = some c := by
  induction l generalizing r with
  | nil =>
      intro i hi
      cases hi
  | cons i l ih =>
      simp only [List.mapM_cons, Option.pure_def, Option.bind_eq_bind,
        Option.bind_eq_some_iff] at h
      obtain ⟨x, hx, xs, hxs, _⟩ := h
      intro j hj
      cases hj with
      | head => exact ⟨x, hx⟩
      | tail _ hj => exact ih hxs j hj

theorem mapM_isSome {γ : Type} {f : β → Option γ} {l : List β}
    (h : ∀ i ∈ l, ∃ c, f i = some c) : ∃ r, l.mapM f = some r := by
  induction l with
  | nil => exact ⟨[], by simp⟩
  | cons i l ih =>
      obtain ⟨c, hc⟩ := h i List.mem_cons_self
      obtain ⟨r, hr⟩ := ih (fun j hj => h j (List.mem_cons_of_mem _ hj))
      exact ⟨c :: r, by simp [hc, hr]⟩

/-- A loop over `l[(start+j)%len(l)]` passes every element within one round. -/
theorem exists_cyclic_index {l : List β} {x : β} (start : Nat) (hx : x ∈ l) :
    ∃ j < l.length, l[(start + j) % l.length]? = some x := by
  obtain ⟨i, hi, hget⟩ := List.mem_iff_getElem.mp hx
  have hsome : l[i]? = some x := List.getElem?_eq_some_iff.mpr ⟨hi, hget⟩
  have hlt := Nat.mod_lt start (Nat.lt_of_le_of_lt (Nat.zero_le i) hi)
  rcases Nat.le_total (start % l.length) i with hle | hle
  · refine ⟨i - start % l.length, by omega, ?_⟩
    rw [← Nat.mod_add_mod, show start % l.length + (i - start % l.length) = i by omega,
      Nat.mod_eq_of_lt hi, hsome]
  · rcases Nat.eq_or_lt_of_le hle with heq | hgt
    · refine ⟨0, by omega, ?_⟩
      rw [Nat.add_zero, ← heq, hsome]
    · refine ⟨l.length + i - start % l.length, by omega, ?_⟩
      rw [← Nat.mod_add_mod,
        show start % l.length + (l.length + i - start % l.length) = l.length + i by omega,
        Nat.add_mod_left, Nat.mod_eq_of_lt hi, hsome]

/-- The slices `l[i:min(i+size, len(l))]` of a loop `for ; i < len(l); i += size`. With a
positive size the loop ends within `len(l)` iterations. -/
def batchesFrom (size : Nat) (l : List β) : Nat → Nat → List (List β)
  | 0, _ => []
  | fuel + 1, i =>
      if i < l.length then
        (l.take (min (i + size) l.length)).drop i :: batchesFrom size l fuel (i + size)
      else []

def batches (size : Nat) (l : List β) : List (List β) := batchesFrom size l l.length 0

theorem batchesFrom_flatten {size : Nat} (hsize : 1 ≤ size) {l : List β} {fuel i : Nat}
    (hfuel : l.length ≤ i + fuel) : (batchesFrom size l fuel i).flatten = l.drop i := by
  induction fuel generalizing i with
  | zero => exact (List.drop_eq_nil_of_le hfuel).symm
  | succ fuel ih =>
      simp only [batchesFrom]
      split
      · have hbatch : (l.take (min (i + size) l.length)).drop i = (l.drop i).take size := by
          rw [List.take_eq_take_min, Nat.min_assoc, Nat.min_self, ← List.take_eq_take_min,
            List.drop_take, Nat.add_sub_cancel_left]
        rw [List.flatten_cons, hbatch, ih (by omega), ← List.drop_drop, List.take_append_drop]
      · rename_i hi
        exact (List.drop_eq_nil_of_le (Nat.not_lt.mp hi)).symm

/-- The batches make up the list. -/
theorem batches_flatten {size : Nat} (hsize : 1 ≤ size) (l : List β) :
    (batches size l).flatten = l :=
  batchesFrom_flatten hsize (by omega)

/-- No batch is empty or too large. -/
theorem mem_batches {size : Nat} (hsize : 1 ≤ size) {l batch : List β}
    (h : batch ∈ batches size l) :
    batch ≠ [] ∧ batch.length ≤ size ∧ batch.Sublist l := by
  suffices hfrom : ∀ fuel i, batch ∈ batchesFrom size l fuel i →
      batch ≠ [] ∧ batch.length ≤ size ∧ batch.Sublist l from hfrom l.length 0 h
  intro fuel
  induction fuel with
  | zero => exact fun i hmem => absurd hmem List.not_mem_nil
  | succ fuel ih =>
      intro i hmem
      simp only [batchesFrom] at hmem
      split at hmem
      · cases hmem with
        | head =>
            refine ⟨List.ne_nil_of_length_pos ?_, ?_, ?_⟩
            · rw [List.length_drop, List.length_take]
              omega
            · rw [List.length_drop, List.length_take]
              omega
            · exact (List.drop_sublist _ _).trans (List.take_sublist _ _)
        | tail _ hmem => exact ih (i + size) hmem
      · cases hmem

/-- `sort.Slice`: a rearrangement in which no element is less than one before it. Which
one, if elements compare equal, is not specified. -/
structure SortSlice (less : β → β → Bool) where
  sort : List β → List β
  perm : ∀ l, (sort l).Perm l
  sorted : ∀ l, (sort l).Pairwise fun x y => less y x = false

/-- The order that keeps equal elements where they were is one of them. -/
def SortSlice.stable (less : β → β → Bool)
    (htotal : ∀ x y, less y x = false ∨ less x y = false)
    (htrans : ∀ x y z, less y x = false → less z y = false → less z x = false) :
    SortSlice less where
  sort := List.insertionSort fun x y => less y x = false
  perm := List.perm_insertionSort _
  sorted :=
    haveI : Std.Total fun x y => less y x = false := ⟨htotal⟩
    haveI : IsTrans β fun x y => less y x = false := ⟨htrans⟩
    List.pairwise_insertionSort _

end GoSlice
