import Mathlib.Data.List.Basic

/-!
A Go channel as its senders see it, and what it means that several sources were merged
into one. Only completed operations count; whether a send has to wait is a matter of the
reader and of the buffer. Sending on a closed channel and closing it again are panics.
-/

/-- A completed operation. -/
inductive ChanOp (α : Type) where
  | send (v : α)
  | close
  deriving DecidableEq

namespace ChanOp

def isClose {α : Type} : ChanOp α → Bool
  | .send _ => false
  | .close => true

end ChanOp

/-- The operations on a channel, the oldest first. -/
structure GoChan (α : Type) where
  ops : List (ChanOp α)
  deriving DecidableEq

namespace GoChan

variable {α : Type}

def make : GoChan α := ⟨[]⟩

def isClosed (c : GoChan α) : Bool := c.ops.any ChanOp.isClose

def send (c : GoChan α) (v : α) : Option (GoChan α) :=
  if c.isClosed then none else some ⟨c.ops ++ [.send v]⟩

def close (c : GoChan α) : Option (GoChan α) :=
  if c.isClosed then none else some ⟨c.ops ++ [.close]⟩

/-- The values were sent and the channel is open. -/
def Holds (c : GoChan α) (values : List α) : Prop := c.ops = values.map .send

/-- The values were sent, then the channel was closed, and nothing came after that. -/
def ClosedAfter (c : GoChan α) (values : List α) : Prop :=
  c.ops = values.map .send ++ [.close]

variable {c : GoChan α} {values : List α}

theorem make_holds : (make : GoChan α).Holds [] := rfl

theorem Holds.isClosed (h : c.Holds values) : c.isClosed = false := by
  rw [GoChan.isClosed, h]
  simp [ChanOp.isClose]

theorem Holds.send (h : c.Holds values) (v : α) :
    ∃ c', c.send v = some c' ∧ c'.Holds (values ++ [v]) := by
  refine ⟨⟨c.ops ++ [.send v]⟩, ?_, ?_⟩
  · rw [GoChan.send, h.isClosed]
    rfl
  · rw [Holds, h, List.map_append]
    rfl

theorem Holds.close (h : c.Holds values) :
    ∃ c', c.close = some c' ∧ c'.ClosedAfter values := by
  refine ⟨⟨c.ops ++ [.close]⟩, ?_, ?_⟩
  · rw [GoChan.close, h.isClosed]
    rfl
  · rw [ClosedAfter, h]

end GoChan

section Interleaving

variable {ι α : Type} [DecidableEq ι]

/-- The whole is an interleaving of the parts: its elements can be labelled with their
parts so that the elements of each part, in order, are that part. -/
def Interleaves (parts : ι → List α) (whole : List α) : Prop :=
  ∃ labelled : List (ι × α), whole = labelled.map Prod.snd ∧
    ∀ i, parts i = (labelled.filter fun e => e.1 = i).map Prod.snd

theorem Interleaves.nil : Interleaves (fun _ : ι => ([] : List α)) [] :=
  ⟨[], rfl, fun _ => rfl⟩

/-- The whole takes one more element of a part. -/
theorem Interleaves.snoc {parts : ι → List α} {whole : List α} (h : Interleaves parts whole)
    (i : ι) (v : α) :
    Interleaves (Function.update parts i (parts i ++ [v])) (whole ++ [v]) := by
  obtain ⟨labelled, hwhole, hparts⟩ := h
  refine ⟨labelled ++ [(i, v)], ?_, fun j => ?_⟩
  · rw [hwhole, List.map_append]
    rfl
  · rw [List.filter_append, List.map_append, ← hparts j]
    by_cases hj : j = i
    · subst hj
      simp
    · simp [Function.update_of_ne hj, Ne.symm hj]

end Interleaving
