import DistributedLabs.Checker.State
import DistributedLabs.Library.History
import Mathlib.Data.List.Perm.Basic

/-!
The writes the checker is told about. Any number of clients begin and complete writes
in any order; each write passes the version that its `BeginWrite` returned to its
`CompleteWrite`. A write also carries what its client knows about it, which the
checker does not see. Calls of the checker are numbered in the order they are made.
-/

namespace CheckerLab

/-- A write between its `BeginWrite` and its `CompleteWrite`. -/
structure Call (K V β : Type) where
  key : K
  value : V
  initialVersion : Int
  begunAt : Nat
  client : β
  deriving DecidableEq

/-- A write whose `CompleteWrite` has returned, with what it recorded. -/
structure Completed (K V β : Type) extends Call K V β where
  err : Option String
  entry : StateValue V
  completedAt : Nat
  deriving DecidableEq

/-- The completed writes are listed newest first. -/
structure Ledger (K V β : Type) where
  cc : ConsistencyChecker K V
  active : List (Call K V β)
  completed : List (Completed K V β)
  seq : Nat
  panicked : Bool

inductive WriteEvent (K V β : Type) where
  | beginWrite (key : K) (value : V) (client : β)
  | progress (i : Nat) (client : β)
  | completeWrite (i : Nat) (err : Option String)
      (maybeExpiredBy definitelyExpiredBy now : Int)

variable {K V β : Type}

def Call.complete (w : Call K V β) (flags : Flags) (err : Option String)
    (maybeExpiredBy definitelyExpiredBy now : Int) (seq : Nat) : Completed K V β :=
  { w with
    err
    entry := newVal flags w.value err maybeExpiredBy definitelyExpiredBy now
    completedAt := seq }

namespace Ledger

/-- No other write to the key is in progress between the two calls of this one. -/
def Isolated (s : Ledger K V β) (c : Completed K V β) : Prop :=
  (∀ w ∈ s.active, w.key = c.key → c.completedAt < w.begunAt) ∧
  ∀ d ∈ s.completed, d ≠ c → d.key = c.key →
    d.completedAt < c.begunAt ∨ c.completedAt < d.begunAt

/-- A completed write that succeeded and was isolated. -/
def Settles (s : Ledger K V β) (c : Completed K V β) : Prop :=
  c ∈ s.completed ∧ c.err = none ∧ s.Isolated c

/-- A completed write with no such write to its key after it. -/
def Current (s : Ledger K V β) (c : Completed K V β) : Prop :=
  c ∈ s.completed ∧ ∀ d, s.Settles d → d.key = c.key → d.completedAt ≤ c.completedAt

variable [DecidableEq K] [DecidableEq V]

section Decide

variable [DecidableEq β] (s : Ledger K V β) (c : Completed K V β)

instance : Decidable (s.Isolated c) := inferInstanceAs (Decidable (_ ∧ _))

instance : Decidable (s.Current c) :=
  decidable_of_iff (c ∈ s.completed ∧ ∀ d ∈ s.completed, d.err = none → s.Isolated d →
      d.key = c.key → d.completedAt ≤ c.completedAt)
    (and_congr_right fun _ => forall_congr' fun _ =>
      ⟨fun h hd => h hd.1 hd.2.1 hd.2.2, fun h hd he hi => h ⟨hd, he, hi⟩⟩)

end Decide

def beginWrite (s : Ledger K V β) (flags : Flags) (key : K) (value : V) (client : β) :
    Ledger K V β :=
  let r := s.cc.beginWrite flags key
  { s with
    cc := r.1
    active := s.active ++ [⟨key, value, r.2, s.seq, client⟩]
    seq := s.seq + 1 }

def progress (s : Ledger K V β) (i : Nat) (client : β) : Option (Ledger K V β) :=
  match s.active[i]? with
  | none => none
  | some w => some { s with active := s.active.set i { w with client } }

def completeWrite (s : Ledger K V β) (flags : Flags) (i : Nat) (err : Option String)
    (maybeExpiredBy definitelyExpiredBy now : Int) : Option (Ledger K V β) :=
  match s.active[i]? with
  | none => none
  | some w =>
      match s.cc.completeWrite flags w.key w.value err w.initialVersion maybeExpiredBy
        definitelyExpiredBy now with
      | none => some { s with panicked := true }
      | some cc => some { s with
          cc
          active := s.active.eraseIdx i
          completed := w.complete flags err maybeExpiredBy definitelyExpiredBy now s.seq ::
            s.completed
          seq := s.seq + 1 }

def step (s : Ledger K V β) (flags : Flags) (e : WriteEvent K V β) :
    Option (Ledger K V β) :=
  if s.panicked = true then none
  else
    match e with
    | .beginWrite key value client => some (s.beginWrite flags key value client)
    | .progress i client => s.progress i client
    | .completeWrite i err maybe definitely now =>
        s.completeWrite flags i err maybe definitely now

/-- What an event needs and what it changes. -/
inductive Step (flags : Flags) (s : Ledger K V β) : WriteEvent K V β → Ledger K V β → Prop
  | beginWrite {key : K} {value : V} {client : β} :
      Step flags s (.beginWrite key value client) (s.beginWrite flags key value client)
  | progress {i : Nat} {client : β} {w : Call K V β} (hw : s.active[i]? = some w) :
      Step flags s (.progress i client)
        { s with active := s.active.set i { w with client } }
  | panic {i : Nat} {err : Option String} {maybe definitely now : Int} {w : Call K V β}
      (hw : s.active[i]? = some w) (hcc : s.cc.completeWrite flags w.key w.value err
        w.initialVersion maybe definitely now = none) :
      Step flags s (.completeWrite i err maybe definitely now) { s with panicked := true }
  | completeWrite {i : Nat} {err : Option String} {maybe definitely now : Int}
      {w : Call K V β} {cc : ConsistencyChecker K V} (hw : s.active[i]? = some w)
      (hcc : s.cc.completeWrite flags w.key w.value err w.initialVersion maybe definitely
        now = some cc) :
      Step flags s (.completeWrite i err maybe definitely now)
        { s with
          cc
          active := s.active.eraseIdx i
          completed := w.complete flags err maybe definitely now s.seq :: s.completed
          seq := s.seq + 1 }

theorem step_cases {flags : Flags} {s t : Ledger K V β} {e : WriteEvent K V β}
    (h : s.step flags e = some t) : s.panicked = false ∧ Step flags s e t := by
  simp only [step] at h
  split at h
  · cases h
  · rename_i hp
    refine ⟨by simpa using hp, ?_⟩
    cases e with
    | beginWrite key value client =>
        obtain rfl := Option.some.inj h
        exact .beginWrite
    | progress i client =>
        simp only [Ledger.progress] at h
        split at h <;> cases h
        exact .progress ‹_›
    | completeWrite i err maybe definitely now =>
        simp only [Ledger.completeWrite] at h
        split at h
        · cases h
        · split at h <;> cases h
          · exact .panic ‹_› ‹_›
          · exact .completeWrite ‹_› ‹_›

/-- A value is used for one write to a key only. -/
def FreshValue (s : Ledger K V β) : WriteEvent K V β → Prop
  | .beginWrite key value _ => (∀ w ∈ s.active, w.key = key → w.value ≠ value) ∧
      ∀ c ∈ s.completed, c.key = key → c.value ≠ value
  | _ => True

instance (s : Ledger K V β) (e : WriteEvent K V β) : Decidable (s.FreshValue e) :=
  match e with
  | .beginWrite _ _ _ => inferInstanceAs (Decidable (_ ∧ _))
  | .progress _ _ | .completeWrite _ _ _ _ _ => isTrue trivial

end Ledger

/-- The machine of all clients that write. -/
def writes (K V β : Type) [DecidableEq K] [DecidableEq V] (flags : Flags) :
    Machine (Ledger K V β) (WriteEvent K V β) where
  init := ⟨makeConsistencyChecker K V, [], [], 0, false⟩
  step := fun s e => s.step flags e

end CheckerLab
