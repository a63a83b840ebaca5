import Mathlib.Data.Finset.Card
import Mathlib.Data.Fintype.Card
import Mathlib.Data.Fintype.Basic

/-!
Majorities of a finite set of participants. Two majorities always meet.
-/

namespace Majority

variable {S : Type} [Fintype S]

/-- More than half of all participants. -/
def IsMajority (Q : Finset S) : Prop := Fintype.card S < 2 * Q.card

theorem exists_mem_inter [DecidableEq S] {P Q : Finset S}
    (hP : IsMajority P) (hQ : IsMajority Q) : ∃ v, v ∈ P ∧ v ∈ Q := by
  have hU := Finset.card_le_univ (P ∪ Q)
  have hI := Finset.card_union_add_card_inter P Q
  have hpos : 0 < (P ∩ Q).card := by
    unfold IsMajority at hP hQ
    omega
  obtain ⟨v, hv⟩ := Finset.card_pos.mp hpos
  exact ⟨v, Finset.mem_of_mem_inter_left hv, Finset.mem_of_mem_inter_right hv⟩

end Majority
