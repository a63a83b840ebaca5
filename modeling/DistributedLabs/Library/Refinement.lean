import DistributedLabs.Library.History

/-!
Refinement of one machine by another along a function on states. A step of the concrete
machine is a step of the abstract one or leaves the abstract state as it is.
-/

namespace Machine

variable {σ ε τ δ : Type} {C : Machine σ ε} {A : Machine τ δ} {f : σ → τ}
  {P : σ → ε → Prop} {Q : τ → δ → Prop} {I : σ → Prop}

/-- Every concrete run shows an abstract one: its newest state is the image of the newest
state, and it passes through the images of all states and no others. -/
theorem Run.refines (h0 : I C.init) (hinit : f C.init = A.init)
    (hinv : ∀ s e t, I s → P s e → C.step s e = some t → I t)
    (hstep : ∀ s e t, I s → P s e → C.step s e = some t →
      f t = f s ∨ ∃ d, Q (f s) d ∧ A.step (f s) d = some (f t))
    {s : σ} {h : List σ} (run : C.Run P (s :: h)) :
    ∃ h', A.Run Q (f s :: h') ∧ ∀ t, t ∈ f s :: h' ↔ ∃ u ∈ s :: h, f u = t := by
  have hI := run.invariant h0 hinv
  induction h generalizing s with
  | nil =>
      cases run with
      | start => exact ⟨[], hinit ▸ .start, by simp [eq_comm]⟩
      | next run _ => exact absurd rfl run.ne_nil
  | cons u h ih =>
      cases run with
      | next run hn =>
          obtain ⟨e, hp, hs⟩ := C.next_cons.mp hn
          obtain ⟨h', run', hmem⟩ := ih run (fun t ht => hI t (List.mem_cons_of_mem _ ht))
          have hu := hI u (List.mem_cons_of_mem _ List.mem_cons_self)
          rcases hstep u e s hu hp hs with heq | ⟨d, hq, hd⟩
          · refine ⟨h', heq ▸ run', fun t => ?_⟩
            rw [heq, hmem t]
            simp only [List.mem_cons]
            grind
          · refine ⟨f u :: h', run'.next (A.next_cons.mpr ⟨d, hq, hd⟩), fun t => ?_⟩
            rw [List.mem_cons, hmem t]
            simp only [List.mem_cons]
            grind

end Machine
