import Mathlib.Data.Int.CardIntervalMod

/-!
Round robin: a counter that runs through a list again and again. Turns that follow one
another go to different members as long as there are no more turns than members, and of the
turns from the first on any two members get the same number, up to one.
-/

namespace RoundRobin

variable {β : Type} {l : List β} {start k : Nat} {x : β}

/-- The members that `k` turns go to, the first being turn number `start`. -/
def deal (l : List β) (start k : Nat) : List β :=
  (List.range' start k).filterMap fun t => l[t % l.length]?

@[simp] theorem deal_zero (l : List β) (start : Nat) : deal l start 0 = [] := rfl

theorem deal_append (l : List β) (start j k : Nat) :
    deal l start j ++ deal l (start + j) k = deal l start (j + k) := by
  rw [deal, deal, deal, ← List.filterMap_append, List.range'_append_1]

theorem getElem?_turn (hl : 0 < l.length) (t : Nat) :
    l[t % l.length]? = some (l.get ⟨t % l.length, Nat.mod_lt t hl⟩) :=
  List.getElem?_eq_getElem (Nat.mod_lt t hl)

theorem deal_one (hl : 0 < l.length) (start : Nat) :
    deal l start 1 = [l.get ⟨start % l.length, Nat.mod_lt start hl⟩] := by
  simp [deal, getElem?_turn hl]

theorem deal_succ (hl : 0 < l.length) (start k : Nat) :
    deal l start (k + 1) =
      deal l start k ++ [l.get ⟨(start + k) % l.length, Nat.mod_lt _ hl⟩] := by
  rw [← deal_append, deal_one hl]

theorem length_deal (hl : 0 < l.length) (start k : Nat) : (deal l start k).length = k := by
  induction k with
  | zero => rfl
  | succ k ih => rw [deal_succ hl, List.length_append, ih, List.length_singleton]

theorem mem_of_mem_deal (h : x ∈ deal l start k) : x ∈ l := by
  obtain ⟨t, _, ht⟩ := List.mem_filterMap.mp h
  exact List.mem_of_getElem? ht

/-- Two turns that are fewer than `n` apart fall on one residue only if they are the same. -/
theorem eq_of_mod_eq {n t u : Nat} (hmod : t % n = u % n) (htu : t ≤ u) (hlt : u < t + n) :
    t = u := by
  have hdvd : n ∣ u - t := (Nat.modEq_iff_dvd' htu).mp hmod
  have hzero := Nat.eq_zero_of_dvd_of_lt hdvd (by omega)
  omega

/-- No member gets two of as many turns as there are members. -/
theorem nodup_deal (hl : l.Nodup) (hk : k ≤ l.length) : (deal l start k).Nodup := by
  induction k with
  | zero => exact List.nodup_nil
  | succ k ih =>
      have hpos : 0 < l.length := Nat.lt_of_lt_of_le (Nat.succ_pos k) hk
      rw [deal_succ hpos]
      refine (ih (Nat.le_of_succ_le hk)).append (List.nodup_singleton _) ?_
      rw [List.disjoint_singleton]
      -- an earlier turn with this member would be less than a round away
      intro hmem
      obtain ⟨t, ht, hget⟩ := List.mem_filterMap.mp hmem
      rw [List.mem_range'_1] at ht
      rw [getElem?_turn hpos, Option.some.injEq, hl.get_inj_iff, Fin.mk.injEq] at hget
      have heq := eq_of_mod_eq hget (by omega) (by omega)
      omega

variable [BEq β] [LawfulBEq β]

/-- The turns of a member are those whose number has its position as residue. -/
theorem count_deal (hl : l.Nodup) {r : Nat} (hr : r < l.length) (k : Nat) :
    (deal l 0 k).count (l.get ⟨r, hr⟩) = Nat.count (· ≡ r [MOD l.length]) k := by
  have hpos : 0 < l.length := Nat.lt_of_le_of_lt (Nat.zero_le r) hr
  induction k with
  | zero => rfl
  | succ k ih =>
      rw [deal_succ hpos, List.count_append, ih, Nat.count_succ, List.count_singleton,
        Nat.zero_add]
      congr 1
      have hiff : l.get ⟨k % l.length, Nat.mod_lt k hpos⟩ = l.get ⟨r, hr⟩ ↔
          k ≡ r [MOD l.length] := by
        rw [hl.get_inj_iff, Fin.mk.injEq, Nat.ModEq, Nat.mod_eq_of_lt hr]
      simp only [beq_iff_eq, hiff]

/-- Of the turns from the first on any two members get the same number, up to one. -/
theorem count_deal_le (hl : l.Nodup) {a b : β} (ha : a ∈ l) (hb : b ∈ l) (k : Nat) :
    (deal l 0 k).count a ≤ (deal l 0 k).count b + 1 := by
  obtain ⟨⟨i, hi⟩, rfl⟩ := List.get_of_mem ha
  obtain ⟨⟨j, hj⟩, rfl⟩ := List.get_of_mem hb
  have hpos : 0 < l.length := Nat.lt_of_le_of_lt (Nat.zero_le i) hi
  rw [count_deal hl hi, count_deal hl hj, Nat.count_modEq_card _ hpos,
    Nat.count_modEq_card _ hpos]
  split <;> split <;> omega

end RoundRobin
