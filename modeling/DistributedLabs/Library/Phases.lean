import Mathlib.Algebra.GroupWithZero.Nat
import Mathlib.Data.List.Basic

/-!
Concurrent calls as a list of phases. A call is appended when it starts and its
entry is overwritten when it takes a step, so what a step does to a set of calls
is what it does to the number of calls in each set of phases.
-/

namespace Phases

variable {φ : Type} {calls : List φ}

/-- What a move does not change is the same for the whole list. -/
theorem map_move {γ : Type} {f : φ → γ} {i : Nat} {a b : φ} (ha : calls[i]? = some a)
    (hf : f b = f a) : (calls.set i b).map f = calls.map f := by
  apply List.ext_getElem?
  intro j
  by_cases hij : i = j
  · subst hij
    obtain ⟨hi, rfl⟩ := List.getElem?_eq_some_iff.mp ha
    simp [hi, hf]
  · simp [hij]

theorem forall_move {P : φ → Prop} (b : φ) {i : Nat} {a : φ} (ha : calls[i]? = some a)
    (hP : P b = P a) : (∀ x ∈ calls.set i b, P x) ↔ ∀ x ∈ calls, P x := by
  have hmap := congrArg (fun l => ∀ q ∈ l, q) (map_move (f := P) ha hP)
  simpa only [List.forall_mem_map] using iff_of_eq hmap

theorem exists_move {P : φ → Prop} (b : φ) {i : Nat} {a : φ} (ha : calls[i]? = some a)
    (hP : P b = P a) : (∃ x ∈ calls.set i b, P x) ↔ ∃ x ∈ calls, P x := by
  have hall := forall_move (P := fun x => ¬ P x) b ha (congrArg Not hP)
  simpa using not_congr hall

theorem mem_move (b : φ) {i : Nat} {a : φ} (ha : calls[i]? = some a) :
    b ∈ calls.set i b := by
  obtain ⟨hi, _⟩ := List.getElem?_eq_some_iff.mp ha
  exact List.mem_set hi b

theorem exists_index_ne {i : Nat} {a x : φ} (ha : calls[i]? = some a) (hx : x ∈ calls)
    (hne : x ≠ a) : ∃ j, j ≠ i ∧ calls[j]? = some x := by
  obtain ⟨j, hj⟩ := List.mem_iff_getElem?.mp hx
  refine ⟨j, ?_, hj⟩
  rintro rfl
  exact hne (Option.some.inj (hj.symm.trans ha))

/-- Another call stays when one moves. -/
theorem mem_set_of_ne (b : φ) {i : Nat} {a x : φ} (ha : calls[i]? = some a) (hx : x ∈ calls)
    (hne : x ≠ a) : x ∈ calls.set i b := by
  obtain ⟨j, hji, hj⟩ := exists_index_ne ha hx hne
  exact List.mem_iff_getElem?.mpr ⟨j, by rw [List.getElem?_set_ne hji.symm, hj]⟩

/-- Another call stays when one ends. -/
theorem mem_eraseIdx_of_ne {i : Nat} {a x : φ} (ha : calls[i]? = some a) (hx : x ∈ calls)
    (hne : x ≠ a) : x ∈ calls.eraseIdx i := by
  obtain ⟨j, hji, hj⟩ := exists_index_ne ha hx hne
  exact List.mem_eraseIdx_iff_getElem?.mpr ⟨j, hji, hj⟩

theorem countP_cons_toNat (p : φ → Bool) (a : φ) (calls : List φ) :
    (a :: calls).countP p = calls.countP p + (p a).toNat := by
  rw [List.countP_cons]
  cases p a <;> rfl

/-- A call that moves from `a` to `b` leaves the other calls where they are. -/
theorem countP_move (p : φ → Bool) (b : φ) {i : Nat} {a : φ} (ha : calls[i]? = some a) :
    (calls.set i b).countP p + (p a).toNat = calls.countP p + (p b).toNat := by
  obtain ⟨hi, rfl⟩ := List.getElem?_eq_some_iff.mp ha
  have hset := List.countP_set (p := p) (a := b) hi
  cases hp : p calls[i] with
  | false => cases hb : p b <;> simp [hset, hp, hb]
  | true =>
      have hpos : 0 < calls.countP p :=
        List.countP_pos_iff.mpr ⟨calls[i], List.getElem_mem hi, hp⟩
      cases hb : p b <;> simp [hset, hp, hb] <;> omega

theorem countP_keep (p : φ → Bool) (b : φ) {i : Nat} {a : φ} (ha : calls[i]? = some a)
    (h : p a = p b) : (calls.set i b).countP p = calls.countP p := by
  have hmove := countP_move p b ha
  rw [h] at hmove
  exact Nat.add_right_cancel hmove

theorem countP_gain (p : φ → Bool) (b : φ) {i : Nat} {a : φ} (ha : calls[i]? = some a)
    (h0 : p a = false) (h1 : p b = true) : (calls.set i b).countP p = calls.countP p + 1 := by
  have hmove := countP_move p b ha
  rwa [h0, h1] at hmove

/-- What a move changes in a sum over the calls. -/
theorem sum_move (f : φ → Nat) (b : φ) {i : Nat} {a : φ} (ha : calls[i]? = some a) :
    ((calls.set i b).map f).sum + f a = (calls.map f).sum + f b := by
  induction calls generalizing i with
  | nil => cases ha
  | cons c calls ih =>
      cases i with
      | zero =>
          obtain rfl : c = a := by simpa using ha
          simp only [List.set_cons_zero, List.map_cons, List.sum_cons]
          omega
      | succ i =>
          have hrest := ih (i := i) (by simpa using ha)
          simp only [List.set_cons_succ, List.map_cons, List.sum_cons]
          omega

theorem sum_eraseIdx (f : φ → Nat) {i : Nat} {a : φ} (ha : calls[i]? = some a) :
    ((calls.eraseIdx i).map f).sum + f a = (calls.map f).sum := by
  induction calls generalizing i with
  | nil => cases ha
  | cons c calls ih =>
      cases i with
      | zero =>
          obtain rfl : c = a := by simpa using ha
          simp only [List.eraseIdx_cons_zero, List.map_cons, List.sum_cons]
          omega
      | succ i =>
          have hrest := ih (i := i) (by simpa using ha)
          simp only [List.eraseIdx_cons_succ, List.map_cons, List.sum_cons]
          omega

/-- Disjoint sets of phases count separately. -/
theorem countP_sum {p q r : φ → Bool} (h : ∀ a, (r a).toNat = (p a).toNat + (q a).toNat)
    (calls : List φ) : calls.countP r = calls.countP p + calls.countP q := by
  induction calls with
  | nil => rfl
  | cons a calls ih =>
      have ha := h a
      cases hp : p a <;> cases hq : q a <;> cases hr : r a <;>
        simp_all <;> omega

theorem countP_and_eq {p q : φ → Bool} :
    calls.countP (fun a => p a && q a) = calls.countP p ↔
      ∀ a ∈ calls, p a = true → q a = true := by
  have hsum := countP_sum (p := fun a => p a && q a) (q := fun a => p a && !q a) (r := p)
    (fun a => by cases p a <;> cases q a <;> rfl) calls
  rw [hsum, Nat.left_eq_add, List.countP_eq_zero]
  simp

end Phases
