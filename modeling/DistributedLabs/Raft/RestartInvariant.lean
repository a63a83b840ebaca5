import DistributedLabs.Raft.Restart

/-!
What holds between the operations of the test. Every name is in one of a few stages; an
operation takes its own name from one stage to the next and leaves the other names where
they are. The calls of the test are well-formed lists of operations: started when every
name is stopped or running, they end that way.
-/

namespace RaftLab

open LabRpc (Service)

variable {n : Nat} {ε β : Type}

/-- A stopped server has no instance. `start1` gives it names, then a new persister, then an
instance and at last a place on the network; `crash1` takes it from the network, copies its
persister and kills it. -/
inductive Stage
  | stopped
  | named
  | renewed
  | made
  | running
  | cut
  | copied
  deriving DecidableEq

namespace Op

def name : Op n ε → Fin n
  | .setConnected i _ | .enableOut i _ _ | .enableIn i _ _ | .deleteServer i | .copySaved i
  | .kill i | .saveAnew i | .makeEnds i _ | .renewSaved i | .make i | .addServer i _ => i

def next : Op n ε → Stage → Option Stage
  | .setConnected _ _, k | .enableOut _ _ _, k | .enableIn _ _ _, k => some k
  | .deleteServer _, .stopped => some .stopped
  | .deleteServer _, .running => some .cut
  | .copySaved _, .stopped => some .stopped
  | .copySaved _, .cut => some .copied
  | .kill _, .stopped => some .stopped
  | .kill _, .copied => some .stopped
  | .saveAnew _, .stopped => some .stopped
  | .makeEnds _ _, .stopped => some .named
  | .renewSaved _, .named => some .renewed
  | .make _, .renewed => some .made
  | .addServer _ _, .made => some .running
  | _, _ => none

/-- The operation only changes what is connected. -/
def links : Op n ε → Bool
  | .setConnected _ _ | .enableOut _ _ _ | .enableIn _ _ _ => true
  | _ => false

theorem next_of_links {op : Op n ε} (h : op.links = true) (k : Stage) : op.next k = some k := by
  cases op with
  | setConnected _ _ | enableOut _ _ _ | enableIn _ _ _ => cases k <;> rfl
  | deleteServer _ | copySaved _ | kill _ | saveAnew _ | makeEnds _ _ | renewSaved _ | make _
  | addServer _ _ => cases h

end Op

/-- The operations can be carried out from these stages, and they leave every name stopped
or running. -/
def Typed : (Fin n → Stage) → List (Op n ε) → Prop
  | k, [] => ∀ i, k i = .stopped ∨ k i = .running
  | k, op :: rest => ∃ next, op.next (k op.name) = some next ∧
      Typed (Function.update k op.name next) rest

namespace Typed

variable {k : Fin n → Stage} {l rest : List (Op n ε)}

theorem links_append (hl : ∀ op ∈ l, op.links = true) (h : Typed k rest) :
    Typed k (l ++ rest) := by
  induction l with
  | nil => exact h
  | cons op l ih =>
      refine ⟨k op.name, Op.next_of_links (hl op List.mem_cons_self) _, ?_⟩
      rw [Function.update_eq_self]
      exact ih (fun op hop => hl op (List.mem_cons_of_mem _ hop))

theorem links_connect (i : Fin n) : ∀ op ∈ (connect i : List (Op n ε)), op.links = true := by
  intro op hop
  simp only [connect, List.mem_cons, List.mem_append, List.mem_map] at hop
  rcases hop with rfl | ⟨j, _, rfl⟩ | ⟨j, _, rfl⟩ <;> rfl

theorem links_disconnect (i : Fin n) :
    ∀ op ∈ (disconnect i : List (Op n ε)), op.links = true := by
  intro op hop
  simp only [disconnect, List.mem_cons, List.mem_append, List.mem_map] at hop
  rcases hop with rfl | ⟨j, _, rfl⟩ | ⟨j, _, rfl⟩ <;> rfl

/-- Operations on one name. -/
theorem append {i : Fin n} {stage : Stage} (hl : ∀ op ∈ l, op.name = i)
    (hn : l.foldlM (fun k op => op.next k) (k i) = some stage)
    (h : Typed (Function.update k i stage) rest) : Typed k (l ++ rest) := by
  induction l generalizing k with
  | nil =>
      obtain rfl := Option.some.inj hn
      rwa [Function.update_eq_self] at h
  | cons op l ih =>
      obtain rfl := hl op List.mem_cons_self
      obtain ⟨next, hnext, hn⟩ := Option.bind_eq_some_iff.mp hn
      refine ⟨next, hnext, ih (fun op hop => hl op (List.mem_cons_of_mem _ hop)) ?_ ?_⟩
      · rwa [Function.update_self]
      · rwa [Function.update_idem]

/-- `crash1` stops the server. -/
theorem crash1 {i : Fin n} (hi : k i = .stopped ∨ k i = .running)
    (h : Typed (Function.update k i .stopped) rest) : Typed k (crash1 i ++ rest) := by
  rw [RaftLab.crash1, List.append_assoc]
  apply links_append (links_disconnect i)
  refine append (i := i) (by simp [Op.name]) ?_ h
  cases hi with
  | inl hstopped => rw [hstopped]; rfl
  | inr hrunning => rw [hrunning]; rfl

theorem ends_update (hk : ∀ i, k i = .stopped ∨ k i = .running) (i : Fin n) {stage : Stage}
    (hstage : stage = .stopped ∨ stage = .running) :
    Typed (Function.update k i stage) ([] : List (Op n ε)) := by
  intro j
  by_cases hj : j = i
  · subst hj
    rwa [Function.update_self]
  · rw [Function.update_of_ne hj]
    exact hk j

/-- The calls of the test are well-formed. -/
theorem ops (hk : ∀ i, k i = .stopped ∨ k i = .running) (p : TestOp n ε) : Typed k p.ops := by
  rw [← List.append_nil p.ops]
  cases p with
  | connect i => exact links_append (links_connect i) hk
  | disconnect i => exact links_append (links_disconnect i) hk
  | crash1 i => exact Typed.crash1 (hk i) (ends_update hk i (Or.inl rfl))
  | start1 i names svc =>
      rw [TestOp.ops, start1, List.append_assoc]
      apply Typed.crash1 (hk i)
      refine append (i := i) (by simp [Op.name]) (by rw [Function.update_self]; rfl) ?_
      rw [Function.update_idem]
      exact ends_update hk i (Or.inr rfl)

end Typed

/-- The last instance made for a name. -/
structure IsLast (l : List (Instance n ε)) (i : Fin n) (a : Nat) (x : Instance n ε) :
    Prop where
  entry : l[a]? = some x
  name : x.name = i
  last : ∀ b y, l[b]? = some y → y.name = i → b ≤ a

/-- The instances at two positions belong to one name, with none of it in between. -/
structure Succeeds (l : List (Instance n ε)) (a b : Nat) (x y : Instance n ε) : Prop where
  left : l[a]? = some x
  right : l[b]? = some y
  lt : a < b
  name : y.name = x.name
  between : ∀ d z, l[d]? = some z → a < d → d < b → z.name ≠ x.name

section Instances

variable {l : List (Instance n ε)} {a b : Nat} {x y : Instance n ε}
  {f : Instance n ε → Instance n ε} {i j : Fin n}

theorem getElem?_modify_cases (h : (l.modify a f)[b]? = some y) :
    ∃ x, l[b]? = some x ∧ ((a = b ∧ y = f x) ∨ (a ≠ b ∧ y = x)) := by
  rw [List.getElem?_modify] at h
  obtain ⟨x, hx, rfl⟩ := Option.map_eq_some_iff.mp h
  by_cases hab : a = b
  · exact ⟨x, hx, Or.inl ⟨hab, if_pos hab⟩⟩
  · exact ⟨x, hx, Or.inr ⟨hab, if_neg hab⟩⟩

theorem getElem?_modify_of (h : l[b]? = some x) :
    (l.modify a f)[b]? = some (if a = b then f x else x) := by
  rw [List.getElem?_modify, h]
  rfl

theorem mem_modify_cases (h : y ∈ l.modify a f) :
    y ∈ l ∨ ∃ x, l[a]? = some x ∧ y = f x := by
  obtain ⟨b, hb⟩ := List.mem_iff_getElem?.mp h
  obtain ⟨x, hx, ⟨rfl, rfl⟩ | ⟨_, rfl⟩⟩ := getElem?_modify_cases hb
  · exact Or.inr ⟨x, hx, rfl⟩
  · exact Or.inl (List.mem_of_getElem? hx)

/-- A change of one instance concerns only its name. -/
theorem entries_modify (hx : l[a]? = some x) (hf : ∀ x, (f x).name = x.name)
    (hj : x.name ≠ j) (b : Nat) (y : Instance n ε) (hy : y.name = j) :
    (l.modify a f)[b]? = some y ↔ l[b]? = some y := by
  constructor
  · intro h
    obtain ⟨z, hz, ⟨rfl, rfl⟩ | ⟨_, rfl⟩⟩ := getElem?_modify_cases h
    · obtain rfl := Option.some.inj (hx.symm.trans hz)
      exact absurd ((hf x).symm.trans hy) hj
    · exact hz
  · intro h
    rw [getElem?_modify_of h, if_neg]
    rintro rfl
    obtain rfl := Option.some.inj (hx.symm.trans h)
    exact hj hy

theorem entries_append (hx : x.name ≠ j) (b : Nat) (y : Instance n ε) (hy : y.name = j) :
    (l ++ [x])[b]? = some y ↔ l[b]? = some y := by
  rw [List.getElem?_append]
  split
  · exact Iff.rfl
  · rename_i hb
    rw [List.getElem?_eq_none (Nat.le_of_not_lt hb), List.getElem?_singleton]
    constructor
    · intro h
      split at h
      · cases h
        exact absurd hy hx
      · cases h
    · intro h
      cases h

theorem IsLast.unique (hx : IsLast l i a x) (hy : IsLast l i b y) : a = b ∧ x = y := by
  have hab := Nat.le_antisymm (hy.last a x hx.entry hx.name) (hx.last b y hy.entry hy.name)
  subst hab
  exact ⟨rfl, Option.some.inj (hx.entry.symm.trans hy.entry)⟩

theorem IsLast.modify (h : IsLast l i a x) (hf : ∀ x, (f x).name = x.name) :
    IsLast (l.modify a f) i a (f x) where
  entry := by rw [getElem?_modify_of h.entry, if_pos rfl]
  name := (hf x).trans h.name
  last := by
    intro b y hb hy
    obtain ⟨z, hz, ⟨rfl, rfl⟩ | ⟨_, rfl⟩⟩ := getElem?_modify_cases hb
    · exact Nat.le_refl _
    · exact h.last b y hz hy

theorem IsLast.append (hx : x.name = i) : IsLast (l ++ [x]) i l.length x where
  entry := by simp
  name := hx
  last := by
    intro b y hb _
    have hlt := (List.getElem?_eq_some_iff.mp hb).1
    rw [List.length_append, List.length_singleton] at hlt
    omega

/-- The second of two successive instances is an old one, or the one just made, and then
the first was the last of its name. -/
theorem Succeeds.append_cases {z : Instance n ε} (h : Succeeds (l ++ [z]) a b x y) :
    Succeeds l a b x y ∨ (y = z ∧ IsLast l z.name a x) := by
  have hb := (List.getElem?_eq_some_iff.mp h.right).1
  rw [List.length_append, List.length_singleton] at hb
  have hlt := h.lt
  have hleft := h.left
  rw [List.getElem?_append_left (by omega)] at hleft
  have hold : ∀ (d : Nat) (w : Instance n ε), l[d]? = some w → (l ++ [z])[d]? = some w := by
    intro d w hd
    rw [List.getElem?_append_left (List.getElem?_eq_some_iff.mp hd).1]
    exact hd
  have hright := h.right
  by_cases hbl : b < l.length
  · rw [List.getElem?_append_left hbl] at hright
    exact Or.inl ⟨hleft, hright, h.lt, h.name, fun d w hd => h.between d w (hold d w hd)⟩
  · have hbl' : b = l.length := by omega
    subst hbl'
    rw [List.getElem?_append_right (Nat.le_refl _), Nat.sub_self] at hright
    cases hright
    refine Or.inr ⟨rfl, hleft, h.name.symm, ?_⟩
    intro d w hd hw
    apply Nat.le_of_not_lt
    intro had
    exact h.between d w (hold d w hd) had (List.getElem?_eq_some_iff.mp hd).1
      (hw.trans h.name)

/-- A change that keeps the names keeps the succession. -/
theorem Succeeds.modify_back {c : Nat} (hf : ∀ x, (f x).name = x.name)
    (h : Succeeds (l.modify c f) a b x y) : ∃ x₀ y₀, Succeeds l a b x₀ y₀ ∧
      ((c = a ∧ x = f x₀) ∨ (c ≠ a ∧ x = x₀)) ∧ ((c = b ∧ y = f y₀) ∨ (c ≠ b ∧ y = y₀)) := by
  obtain ⟨x₀, hx₀, hx⟩ := getElem?_modify_cases h.left
  obtain ⟨y₀, hy₀, hy⟩ := getElem?_modify_cases h.right
  have hname : ∀ {d : Nat} {w w₀ : Instance n ε},
      (c = d ∧ w = f w₀) ∨ (c ≠ d ∧ w = w₀) → w.name = w₀.name := by
    rintro d w w₀ (⟨_, rfl⟩ | ⟨_, rfl⟩)
    · exact hf w₀
    · rfl
  refine ⟨x₀, y₀, ⟨hx₀, hy₀, h.lt, ?_, ?_⟩, hx, hy⟩
  · rw [← hname hx, ← hname hy]
    exact h.name
  · intro d z hz had hdb
    have hbetween := h.between d _ (getElem?_modify_of hz) had hdb
    rw [hname hx] at hbetween
    intro heq
    apply hbetween
    split
    · exact (hf z).trans heq
    · exact heq

end Instances

namespace Config

variable (s : Config n ε β)

/-- The pointer is valid and no instance holds it. -/
def Unowned (q : Nat) : Prop :=
  q < s.persisters.length ∧ ∀ x ∈ s.instances, x.persister ≠ q

/-- Without an instance, `saved[i]` holds what was copied from the last one. -/
structure Down (i : Fin n) : Prop where
  raft : s.rafts i = none
  server : s.net.net.servers i = none
  free : ∀ q, s.saved i = some q → s.Unowned q
  handed : ∀ a x, IsLast s.instances i a x →
    ∃ q p, s.saved i = some q ∧ s.persisters[q]? = some p ∧ x.final = some p

/-- The last instance made for the name is the one that is up. -/
structure Up (i : Fin n) (a : Nat) (x : Instance n ε) : Prop
    extends IsLast s.instances i a x where
  raft : s.rafts i = some a

def Holds (i : Fin n) : Stage → Prop
  | .stopped => s.Down i
  | .named => s.Down i ∧ (s.endnames i).isSome = true
  | .renewed => s.Down i ∧ (s.endnames i).isSome = true ∧ (s.saved i).isSome = true
  | .made => ∃ a x, s.Up i a x ∧ s.saved i = some x.persister ∧ x.final = none ∧
      s.net.net.servers i = none ∧ x.server = none
  | .running => ∃ a x, s.Up i a x ∧ s.saved i = some x.persister ∧ x.final = none
  | .cut => ∃ a x, s.Up i a x ∧ s.saved i = some x.persister ∧ x.final = none ∧
      s.net.net.servers i = none
  | .copied => ∃ a x, s.Up i a x ∧ s.net.net.servers i = none ∧
      ∃ q p, s.saved i = some q ∧ s.Unowned q ∧ s.persisters[q]? = some p ∧ x.final = some p

variable {s} {t : Config n ε β}

/-- Nothing that concerns a name has changed. -/
structure Same (s t : Config n ε β) (j : Fin n) : Prop where
  rafts : t.rafts j = s.rafts j
  saved : t.saved j = s.saved j
  server : s.net.net.servers j = none → t.net.net.servers j = none
  endnames : (s.endnames j).isSome = true → (t.endnames j).isSome = true
  entries : ∀ (a : Nat) (x : Instance n ε), x.name = j →
    (t.instances[a]? = some x ↔ s.instances[a]? = some x)
  free : ∀ q, s.saved j = some q → s.Unowned q →
    t.Unowned q ∧ t.persisters[q]? = s.persisters[q]?

namespace Same

variable {j : Fin n} {a : Nat} {x : Instance n ε}

theorem isLast (h : Same s t j) (hl : IsLast s.instances j a x) : IsLast t.instances j a x where
  entry := (h.entries a x hl.name).mpr hl.entry
  name := hl.name
  last := fun b y hy hname => hl.last b y ((h.entries b y hname).mp hy) hname

theorem isLast_back (h : Same s t j) (hl : IsLast t.instances j a x) :
    IsLast s.instances j a x where
  entry := (h.entries a x hl.name).mp hl.entry
  name := hl.name
  last := fun b y hy hname => hl.last b y ((h.entries b y hname).mpr hy) hname

theorem up (h : Same s t j) (hu : s.Up j a x) : t.Up j a x where
  toIsLast := h.isLast hu.toIsLast
  raft := h.rafts.trans hu.raft

theorem down (h : Same s t j) (hd : s.Down j) : t.Down j where
  raft := h.rafts.trans hd.raft
  server := h.server hd.server
  free := by
    intro q hq
    rw [h.saved] at hq
    exact (h.free q hq (hd.free q hq)).1
  handed := by
    intro a x hl
    obtain ⟨q, p, hq, hp, hfinal⟩ := hd.handed a x (h.isLast_back hl)
    refine ⟨q, p, h.saved.trans hq, ?_, hfinal⟩
    rw [(h.free q hq (hd.free q hq)).2]
    exact hp

theorem holds (h : Same s t j) {k : Stage} (hk : s.Holds j k) : t.Holds j k := by
  cases k with
  | stopped => exact h.down hk
  | named => exact ⟨h.down hk.1, h.endnames hk.2⟩
  | renewed => exact ⟨h.down hk.1, h.endnames hk.2.1, h.saved ▸ hk.2.2⟩
  | made =>
      obtain ⟨a, x, hu, hsaved, hfinal, hserver, hx⟩ := hk
      exact ⟨a, x, h.up hu, h.saved.trans hsaved, hfinal, h.server hserver, hx⟩
  | running =>
      obtain ⟨a, x, hu, hsaved, hfinal⟩ := hk
      exact ⟨a, x, h.up hu, h.saved.trans hsaved, hfinal⟩
  | cut =>
      obtain ⟨a, x, hu, hsaved, hfinal, hserver⟩ := hk
      exact ⟨a, x, h.up hu, h.saved.trans hsaved, hfinal, h.server hserver⟩
  | copied =>
      obtain ⟨a, x, hu, hserver, q, p, hsaved, hfree, hp, hfinal⟩ := hk
      obtain ⟨hfree', heq⟩ := h.free q hsaved hfree
      exact ⟨a, x, h.up hu, h.server hserver, q, p, h.saved.trans hsaved, hfree',
        heq.trans hp, hfinal⟩

end Same

/-- Valid pointers in `saved`, each for one name. -/
structure SavedOk (size : Nat) (saved : Fin n → Option Nat) : Prop where
  lt : ∀ i q, saved i = some q → q < size
  once : ∀ i j q, saved i = some q → saved j = some q → i = j

/-- Every instance has a persister of its own. -/
structure OwnersOk (size : Nat) (l : List (Instance n ε)) : Prop where
  lt : ∀ x ∈ l, x.persister < size
  apart : ∀ (a b : Nat) (x y : Instance n ε), l[a]? = some x → l[b]? = some y →
    x.persister = y.persister → a = b

/-- Every instance has a server of its own, and a name on the network stands for the server
of an instance that has not been copied. -/
structure ServersOk (size : Nat) (servers : Fin n → Option Nat) (l : List (Instance n ε)) :
    Prop where
  lt : ∀ x ∈ l, ∀ p, x.server = some p → p < size
  apart : ∀ (a b : Nat) (x y : Instance n ε) (p : Nat), l[a]? = some x → l[b]? = some y →
    x.server = some p → y.server = some p → a = b
  owned : ∀ i p, servers i = some p →
    ∃ x ∈ l, x.name = i ∧ x.server = some p ∧ x.final = none

/-- An instance began with what was copied from the one before it. -/
def HandedOn (l : List (Instance n ε)) : Prop :=
  ∀ a b x y, Succeeds l a b x y → x.final = some y.initial

theorem SavedOk.allocate (h : SavedOk s.persisters.length s.saved) (i : Fin n)
    (p : Persister) :
    SavedOk (s.allocate i p).persisters.length (s.allocate i p).saved where
  lt := by
    intro j q hq
    simp only [Config.allocate, Function.update_apply] at hq
    simp only [Config.allocate, List.length_append, List.length_singleton]
    split at hq
    · cases hq
      exact Nat.lt_succ_self _
    · exact Nat.lt_succ_of_lt (h.lt j q hq)
  once := by
    intro j k q hj hk
    simp only [Config.allocate, Function.update_apply] at hj hk
    split at hj <;> split at hk
    · rename_i hji hki
      rw [hji, hki]
    · cases hj
      exact absurd (h.lt k _ hk) (Nat.lt_irrefl _)
    · cases hk
      exact absurd (h.lt j _ hj) (Nat.lt_irrefl _)
    · exact h.once j k q hj hk

theorem OwnersOk.allocate (h : OwnersOk s.persisters.length s.instances) (i : Fin n)
    (p : Persister) : OwnersOk (s.allocate i p).persisters.length s.instances where
  lt := by
    intro x hx
    simp only [Config.allocate, List.length_append, List.length_singleton]
    exact Nat.lt_succ_of_lt (h.lt x hx)
  apart := h.apart

theorem OwnersOk.modify {l : List (Instance n ε)} {size : Nat} (h : OwnersOk size l) (c : Nat)
    {f : Instance n ε → Instance n ε} (hf : ∀ x, (f x).persister = x.persister) :
    OwnersOk size (l.modify c f) where
  lt := by
    intro y hy
    cases mem_modify_cases hy with
    | inl hy => exact h.lt y hy
    | inr hy =>
        obtain ⟨x, hx, rfl⟩ := hy
        rw [hf]
        exact h.lt x (List.mem_of_getElem? hx)
  apart := by
    intro a b x y hx hy heq
    obtain ⟨x₀, hx₀, hx⟩ := getElem?_modify_cases hx
    obtain ⟨y₀, hy₀, hy⟩ := getElem?_modify_cases hy
    apply h.apart a b x₀ y₀ hx₀ hy₀
    rcases hx with ⟨_, rfl⟩ | ⟨_, rfl⟩ <;> rcases hy with ⟨_, rfl⟩ | ⟨_, rfl⟩ <;>
      simpa only [hf] using heq

/-- The new persister belongs to no instance. -/
theorem OwnersOk.unowned_allocate (h : OwnersOk s.persisters.length s.instances) (i : Fin n)
    (p : Persister) :
    (s.allocate i p).Unowned s.persisters.length ∧
      (s.allocate i p).persisters[s.persisters.length]? = some p := by
  refine ⟨⟨?_, ?_⟩, ?_⟩
  · simp [Config.allocate]
  · intro x hx heq
    have hlt := h.lt x hx
    omega
  · simp [Config.allocate]

theorem same_allocate {i j : Fin n} (p : Persister) (hj : j ≠ i) :
    Same s (s.allocate i p) j where
  rafts := rfl
  saved := Function.update_of_ne hj _ _
  server := id
  endnames := id
  entries := fun _ _ _ => Iff.rfl
  free := by
    intro q _ hfree
    refine ⟨⟨?_, hfree.2⟩, List.getElem?_append_left hfree.1⟩
    simp only [Config.allocate, List.length_append, List.length_singleton]
    exact Nat.lt_succ_of_lt hfree.1

theorem getElem?_content {q : Nat} (h : q < s.persisters.length) :
    s.persisters[q]? = some (s.content q) := by
  rw [content, List.getElem?_eq_getElem h, Option.getD_some]

/-- A copy keeps what is handed on. -/
theorem Down.allocate {i : Fin n} {q : Nat} (h : s.Down i)
    (howners : OwnersOk s.persisters.length s.instances) (hq : s.saved i = some q) :
    (s.allocate i (s.content q)).Down i where
  raft := h.raft
  server := h.server
  free := by
    intro q' hq'
    simp only [Config.allocate, Function.update_self, Option.some.injEq] at hq'
    subst hq'
    exact (howners.unowned_allocate i _).1
  handed := by
    intro a x hl
    obtain ⟨q', p, hq', hp, hfinal⟩ := h.handed a x hl
    obtain rfl := Option.some.inj (hq.symm.trans hq')
    refine ⟨_, p, Function.update_self _ _ _, ?_, hfinal⟩
    rw [(howners.unowned_allocate i _).2, ← getElem?_content (h.free q hq).1]
    exact hp

theorem Down.allocate_first {i : Fin n} (h : s.Down i)
    (howners : OwnersOk s.persisters.length s.instances) (hq : s.saved i = none)
    (p : Persister) : (s.allocate i p).Down i where
  raft := h.raft
  server := h.server
  free := by
    intro q' hq'
    simp only [Config.allocate, Function.update_self, Option.some.injEq] at hq'
    subst hq'
    exact (howners.unowned_allocate i _).1
  handed := by
    intro a x hl
    obtain ⟨q', p, hq', _⟩ := h.handed a x hl
    rw [hq] at hq'
    cases hq'

structure PointersOk (s : Config n ε β) : Prop where
  saved : SavedOk s.persisters.length s.saved
  owners : OwnersOk s.persisters.length s.instances
  servers : ServersOk s.net.heap.length s.net.net.servers s.instances
  handed : HandedOn s.instances

/-- An operation on `i` has taken it to the stage and left the other names alone. -/
structure Carried (s t : Config n ε β) (i : Fin n) (stage : Stage) : Prop where
  pointers : t.PointersOk
  holds : t.Holds i stage
  same : ∀ j, j ≠ i → Same s t j

/-- The instances and their servers are the same; the ends of the network may differ. -/
structure SameInstances (s t : Config n ε β) : Prop where
  persisters : t.persisters = s.persisters
  saved : t.saved = s.saved
  rafts : t.rafts = s.rafts
  instances : t.instances = s.instances
  endnames : ∀ i, (s.endnames i).isSome = true → (t.endnames i).isSome = true
  servers : t.net.net.servers = s.net.net.servers
  heap : t.net.heap.length = s.net.heap.length

theorem SameInstances.same (h : SameInstances s t) (j : Fin n) : Same s t j where
  rafts := by rw [h.rafts]
  saved := by rw [h.saved]
  server := by rw [h.servers]; exact id
  endnames := h.endnames j
  entries := by
    intro a x _
    rw [h.instances]
  free := by
    intro q _ hfree
    refine ⟨⟨?_, ?_⟩, ?_⟩
    · rw [h.persisters]
      exact hfree.1
    · rw [h.instances]
      exact hfree.2
    · rw [h.persisters]

theorem SameInstances.pointers (h : SameInstances s t) (hs : s.PointersOk) : t.PointersOk where
  saved := by
    rw [h.saved, h.persisters]
    exact hs.saved
  owners := by
    rw [h.instances, h.persisters]
    exact hs.owners
  servers := by
    rw [h.instances, h.heap, h.servers]
    exact hs.servers
  handed := by
    rw [h.instances]
    exact hs.handed

theorem SameInstances.carried (h : SameInstances s t) (hs : s.PointersOk) {i : Fin n}
    {stage : Stage} (hi : s.Holds i stage) : Carried s t i stage :=
  ⟨h.pointers hs, (h.same i).holds hi, fun j _ => h.same j⟩

theorem withTask_sameInstances (rest : List (Op n ε)) : SameInstances s { s with task := rest } :=
  ⟨rfl, rfl, rfl, rfl, fun _ => id, rfl, rfl⟩

theorem PointersOk.allocate (h : s.PointersOk) (i : Fin n) (p : Persister) :
    (s.allocate i p).PointersOk :=
  ⟨h.saved.allocate i p, h.owners.allocate i p, h.servers, h.handed⟩

/-- A change of the instance that is up, other than of what it keeps for good. -/
theorem same_modify {i j : Fin n} {a : Nat} {x : Instance n ε}
    {f : Instance n ε → Instance n ε} (hx : s.instances[a]? = some x) (hname : x.name = i)
    (hf : ∀ x, (f x).name = x.name) (hp : ∀ x, (f x).persister = x.persister) (hj : j ≠ i)
    {rafts : Fin n → Option Nat} (hr : rafts j = s.rafts j) :
    Same s { s with instances := s.instances.modify a f, rafts } j where
  rafts := hr
  saved := rfl
  server := id
  endnames := id
  entries := entries_modify hx hf (by rw [hname]; exact hj.symm)
  free := by
    intro q _ hfree
    refine ⟨⟨hfree.1, ?_⟩, rfl⟩
    intro y hy
    cases mem_modify_cases hy with
    | inl hy => exact hfree.2 y hy
    | inr hy =>
        obtain ⟨z, hz, rfl⟩ := hy
        rw [hp]
        exact hfree.2 z (List.mem_of_getElem? hz)

theorem Same.trans {u : Config n ε β} {j : Fin n} (h : Same s t j) (h' : Same t u j) :
    Same s u j where
  rafts := h'.rafts.trans h.rafts
  saved := h'.saved.trans h.saved
  server := fun hs => h'.server (h.server hs)
  endnames := fun hs => h'.endnames (h.endnames hs)
  entries := fun a x hx => (h'.entries a x hx).trans (h.entries a x hx)
  free := by
    intro q hq hfree
    obtain ⟨hfree', heq⟩ := h.free q hq hfree
    obtain ⟨hfree'', heq'⟩ := h'.free q (h.saved.trans hq) hfree'
    exact ⟨hfree'', heq'.trans heq⟩

theorem HandedOn.modify {l : List (Instance n ε)} (h : HandedOn l) (c : Nat)
    {f : Instance n ε → Instance n ε} (hf : ∀ x, (f x).name = x.name)
    (hi : ∀ x, (f x).initial = x.initial)
    (hc : ∀ b x y, Succeeds l c b x y → (f x).final = x.final) : HandedOn (l.modify c f) := by
  intro a b x y hs
  obtain ⟨x₀, y₀, hs₀, hx, hy⟩ := hs.modify_back hf
  have hinitial : y.initial = y₀.initial := by
    rcases hy with ⟨_, rfl⟩ | ⟨_, rfl⟩
    · exact hi y₀
    · rfl
  have hfinal : x.final = x₀.final := by
    rcases hx with ⟨rfl, rfl⟩ | ⟨_, rfl⟩
    · exact hc b x₀ y₀ hs₀
    · rfl
  rw [hinitial, hfinal]
  exact h a b x₀ y₀ hs₀

theorem not_succeeds_of_isLast {l : List (Instance n ε)} {i : Fin n} {a b : Nat}
    {x x' y : Instance n ε} (hl : IsLast l i a x) : ¬ Succeeds l a b x' y := by
  intro hs
  have hx : x' = x := Option.some.inj (hs.left.symm.trans hl.entry)
  have hle := hl.last b y hs.right (by rw [hs.name, hx, hl.name])
  have hlt := hs.lt
  omega

theorem ServersOk.modify {l : List (Instance n ε)} {size : Nat}
    {servers : Fin n → Option Nat} (h : ServersOk size servers l) {c : Nat}
    {f : Instance n ε → Instance n ε} (hserver : ∀ x, (f x).server = x.server)
    (howned : ∀ x p, l[c]? = some x → servers x.name = some p → x.server = some p →
      (f x).name = x.name ∧ (f x).final = x.final) :
    ServersOk size servers (l.modify c f) where
  lt := by
    intro y hy p hp
    cases mem_modify_cases hy with
    | inl hy => exact h.lt y hy p hp
    | inr hy =>
        obtain ⟨x, hx, rfl⟩ := hy
        rw [hserver] at hp
        exact h.lt x (List.mem_of_getElem? hx) p hp
  apart := by
    intro a b x y p hx hy hxp hyp
    obtain ⟨x₀, hx₀, hx⟩ := getElem?_modify_cases hx
    obtain ⟨y₀, hy₀, hy⟩ := getElem?_modify_cases hy
    refine h.apart a b x₀ y₀ p hx₀ hy₀ ?_ ?_
    · rcases hx with ⟨_, rfl⟩ | ⟨_, rfl⟩
      · rwa [hserver] at hxp
      · exact hxp
    · rcases hy with ⟨_, rfl⟩ | ⟨_, rfl⟩
      · rwa [hserver] at hyp
      · exact hyp
  owned := by
    intro i p hi
    obtain ⟨x, hx, hname, hp, hfinal⟩ := h.owned i p hi
    obtain ⟨b, hb⟩ := List.mem_iff_getElem?.mp hx
    refine ⟨_, List.mem_of_getElem? (getElem?_modify_of (a := c) (f := f) hb), ?_⟩
    split
    · rename_i hcb
      subst hcb
      obtain ⟨hn, hf⟩ := howned x p hb (by rw [hname]; exact hi) hp
      exact ⟨hn.trans hname, (hserver x).trans hp, hf.trans hfinal⟩
    · exact ⟨hname, hp, hfinal⟩

theorem getElem?_append_singleton_cases {l : List (Instance n ε)} {z y : Instance n ε} {b : Nat}
    (h : (l ++ [z])[b]? = some y) : l[b]? = some y ∨ (b = l.length ∧ y = z) := by
  rw [List.getElem?_append] at h
  split at h
  · exact Or.inl h
  · rw [List.getElem?_singleton] at h
    split at h
    · cases h
      exact Or.inr ⟨by omega, rfl⟩
    · cases h

theorem OwnersOk.append {l : List (Instance n ε)} {size : Nat} (h : OwnersOk size l)
    {z : Instance n ε} (hlt : z.persister < size) (hnew : ∀ x ∈ l, x.persister ≠ z.persister) :
    OwnersOk size (l ++ [z]) where
  lt := by
    intro x hx
    cases List.mem_append.mp hx with
    | inl hx => exact h.lt x hx
    | inr hx =>
        obtain rfl := List.mem_singleton.mp hx
        exact hlt
  apart := by
    intro a b x y hx hy heq
    rcases getElem?_append_singleton_cases hx with hx' | ⟨rfl, rfl⟩ <;>
      rcases getElem?_append_singleton_cases hy with hy' | ⟨rfl, rfl⟩
    · exact h.apart a b x y hx' hy' heq
    · exact absurd heq (hnew x (List.mem_of_getElem? hx'))
    · exact absurd heq.symm (hnew y (List.mem_of_getElem? hy'))
    · rfl

theorem ServersOk.append {l : List (Instance n ε)} {size : Nat}
    {servers : Fin n → Option Nat} (h : ServersOk size servers l) {z : Instance n ε}
    (hz : z.server = none) : ServersOk size servers (l ++ [z]) where
  lt := by
    intro x hx p hp
    cases List.mem_append.mp hx with
    | inl hx => exact h.lt x hx p hp
    | inr hx =>
        obtain rfl := List.mem_singleton.mp hx
        rw [hz] at hp
        cases hp
  apart := by
    intro a b x y p hx hy hxp hyp
    rcases getElem?_append_singleton_cases hx with hx | ⟨_, rfl⟩
    · rcases getElem?_append_singleton_cases hy with hy | ⟨_, rfl⟩
      · exact h.apart a b x y p hx hy hxp hyp
      · rw [hz] at hyp
        cases hyp
    · rw [hz] at hxp
      cases hxp
  owned := by
    intro i p hi
    obtain ⟨x, hx, hrest⟩ := h.owned i p hi
    exact ⟨x, List.mem_append_left _ hx, hrest⟩

/-- A server of its own for the instance at `c`, which becomes the one its name stands for. -/
theorem ServersOk.add {l : List (Instance n ε)} {size : Nat} {servers : Fin n → Option Nat}
    (h : ServersOk size servers l) {c : Nat} {x : Instance n ε} (hx : l[c]? = some x)
    (hfinal : x.final = none) :
    ServersOk (size + 1) (Function.update servers x.name (some size))
      (l.modify c fun x => { x with server := some size }) where
  lt := by
    intro y hy p hp
    cases mem_modify_cases hy with
    | inl hy => exact Nat.lt_succ_of_lt (h.lt y hy p hp)
    | inr hy =>
        obtain ⟨z, _, rfl⟩ := hy
        cases hp
        exact Nat.lt_succ_self size
  apart := by
    intro a b y z p hy hz hyp hzp
    obtain ⟨y₀, hy₀, hy⟩ := getElem?_modify_cases hy
    obtain ⟨z₀, hz₀, hz⟩ := getElem?_modify_cases hz
    rcases hy with ⟨rfl, rfl⟩ | ⟨_, rfl⟩ <;> rcases hz with ⟨rfl, rfl⟩ | ⟨_, rfl⟩
    · rfl
    · cases hyp
      exact absurd (h.lt z (List.mem_of_getElem? hz₀) size hzp) (Nat.lt_irrefl _)
    · cases hzp
      exact absurd (h.lt y (List.mem_of_getElem? hy₀) size hyp) (Nat.lt_irrefl _)
    · exact h.apart a b y z p hy₀ hz₀ hyp hzp
  owned := by
    intro i p hi
    rw [Function.update_apply] at hi
    split at hi
    · rename_i hname
      cases hi
      exact ⟨_, List.mem_of_getElem? (getElem?_modify_of hx),
        by rw [if_pos rfl]; exact ⟨hname.symm, rfl, hfinal⟩⟩
    · rename_i hname
      obtain ⟨y, hy, hyname, hp, hyfinal⟩ := h.owned i p hi
      obtain ⟨b, hb⟩ := List.mem_iff_getElem?.mp hy
      have hcb : c ≠ b := by
        rintro rfl
        obtain rfl := Option.some.inj (hx.symm.trans hb)
        exact hname hyname.symm
      refine ⟨_, List.mem_of_getElem? (getElem?_modify_of hb), ?_⟩
      rw [if_neg hcb]
      exact ⟨hyname, hp, hyfinal⟩

variable [DecidableEq ε]

@[simp] theorem setUp_deleteServer (net : LabRpc.State ε (Fin n) β) (i : Fin n) :
    (setUp net (.deleteServer i)).net.servers = Function.update net.net.servers i none :=
  rfl

theorem setUp_addServer (net : LabRpc.State ε (Fin n) β) (i : Fin n) (svc : Service) :
    (setUp (setUp (setUp net .makeServer) (.addService net.heap.length svc))
      (.addServer i net.heap.length)).net.servers =
        Function.update net.net.servers i (some net.heap.length) ∧
    (setUp (setUp (setUp net .makeServer) (.addService net.heap.length svc))
      (.addServer i net.heap.length)).heap.length = net.heap.length + 1 := by
  simp [setUp, LabRpc.State.stepSetup]

theorem enable_sameInstances (names : Option (Fin n → ε)) (other j : Fin n) (enabled : Bool) :
    SameInstances s (s.enable names other j enabled) := by
  cases enabled with
  | true =>
      cases names with
      | none =>
          simp only [enable]
          split
          · exact ⟨rfl, rfl, rfl, rfl, fun _ => id, rfl, rfl⟩
          · exact ⟨rfl, rfl, rfl, rfl, fun _ => id, rfl, rfl⟩
      | some names =>
          simp only [enable]
          split
          · exact ⟨rfl, rfl, rfl, rfl, fun _ => id, rfl, rfl⟩
          · exact ⟨rfl, rfl, rfl, rfl, fun _ => id, rfl, rfl⟩
  | false =>
      cases names with
      | none => exact ⟨rfl, rfl, rfl, rfl, fun _ => id, rfl, rfl⟩
      | some names => exact ⟨rfl, rfl, rfl, rfl, fun _ => id, rfl, rfl⟩

theorem makeEnds_tables (names : Fin n → ε) (js : List (Fin n))
    (net : LabRpc.State ε (Fin n) β) :
    (makeEnds names js net).net.servers = net.net.servers ∧
      (makeEnds names js net).heap = net.heap := by
  induction js generalizing net with
  | nil => exact ⟨rfl, rfl⟩
  | cons j js ih =>
      simp only [makeEnds]
      split
      · exact ⟨rfl, rfl⟩
      · rename_i hfree
        obtain ⟨hservers, hheap⟩ := ih
          (setUp (setUp net (.makeEnd (names j))) (.connect (names j) j))
        have hends : net.net.ends (names j) = false := by simpa using hfree
        refine ⟨hservers.trans ?_, hheap.trans ?_⟩
        · simp [setUp, LabRpc.State.stepSetup, hends]
        · simp [setUp, LabRpc.State.stepSetup, hends]

section Operations

variable {i : Fin n} {stage next : Stage}

theorem carried_makeEnds (h : s.PointersOk) (names : Fin n → ε) (hi : s.Holds i stage)
    (hn : (Op.makeEnds i names).next stage = some next) :
    Carried s (s.exec (.makeEnds i names)) i next := by
  obtain ⟨hservers, hheap⟩ := makeEnds_tables names (List.finRange n) s.net
  have hl : SameInstances s (s.exec (.makeEnds i names)) := by
    refine ⟨rfl, rfl, rfl, rfl, ?_, hservers, congrArg List.length hheap⟩
    intro j hj
    simp only [exec, Function.update_apply]
    split
    · rfl
    · exact hj
  cases stage with
  | stopped =>
      cases hn
      refine ⟨hl.pointers h, ⟨(hl.same i).down hi, ?_⟩, fun j _ => hl.same j⟩
      simp [exec]
  | named | renewed | made | running | cut | copied => cases hn

/-- `DeleteServer`: a running server is cut off. -/
theorem carried_deleteServer (h : s.PointersOk) (hi : s.Holds i stage)
    (hn : (Op.deleteServer i : Op n ε).next stage = some next) :
    Carried s (s.exec (.deleteServer i)) i next := by
  have hsame : ∀ j, Same s (s.exec (.deleteServer i)) j := by
    intro j
    refine ⟨rfl, rfl, ?_, id, fun _ _ _ => Iff.rfl, fun _ _ hfree => ⟨hfree, rfl⟩⟩
    intro hj
    change (setUp s.net (.deleteServer i)).net.servers j = none
    rw [setUp_deleteServer, Function.update_apply, hj, ite_self]
  refine ⟨⟨h.saved, h.owners, ⟨h.servers.lt, h.servers.apart, ?_⟩, h.handed⟩, ?_,
    fun j _ => hsame j⟩
  · intro j p hj
    change (setUp s.net (.deleteServer i)).net.servers j = some p at hj
    rw [setUp_deleteServer, Function.update_apply] at hj
    split at hj
    · cases hj
    · exact h.servers.owned j p hj
  · cases stage with
    | stopped =>
        cases hn
        exact (hsame i).holds hi
    | running =>
        cases hn
        obtain ⟨a, x, hu, hsaved, hfinal⟩ := (hsame i).holds hi
        refine ⟨a, x, hu, hsaved, hfinal, ?_⟩
        change (setUp s.net (.deleteServer i)).net.servers i = none
        rw [setUp_deleteServer, Function.update_self]
    | named | renewed | made | cut | copied => cases hn

/-- The copy of `crash1`: what the instance has saved so far is handed on. -/
theorem carried_copySaved (h : s.PointersOk) (hi : s.Holds i stage)
    (hn : (Op.copySaved i : Op n ε).next stage = some next) :
    Carried s (s.exec (.copySaved i)) i next := by
  cases stage with
  | stopped =>
      cases hn
      have hdown : s.Down i := hi
      cases hq : s.saved i with
      | none =>
          have heq : s.exec (.copySaved i) = s := by simp only [exec, hq]
          rw [heq]
          exact ⟨h, hi, fun j _ => (withTask_sameInstances s.task).same j⟩
      | some q =>
          have heq : s.exec (.copySaved i) = s.allocate i (s.content q) := by
            simp only [exec, hq, hdown.raft]
            rfl
          rw [heq]
          exact ⟨h.allocate i _, hdown.allocate h.owners hq, fun j hj => same_allocate _ hj⟩
  | cut =>
      cases hn
      obtain ⟨a, x, hu, hsaved, hfinal, hserver⟩ := hi
      have heq : s.exec (.copySaved i) = { s.allocate i (s.content x.persister) with
          instances := s.instances.modify a
            fun x' => { x' with final := some (s.content x.persister) } } := by
        simp only [exec, hsaved, hu.raft]
      rw [heq]
      have halloc := h.allocate i (s.content x.persister)
      refine ⟨⟨halloc.saved, halloc.owners.modify a (fun _ => rfl), ?_, ?_⟩, ?_, ?_⟩
      · refine halloc.servers.modify (fun _ => rfl) ?_
        intro x' p hx' hp _
        obtain rfl := Option.some.inj (hu.entry.symm.trans hx')
        rw [hu.name] at hp
        change s.net.net.servers i = some p at hp
        rw [hserver] at hp
        cases hp
      · refine HandedOn.modify h.handed a (fun _ => rfl) (fun _ => rfl) ?_
        intro b x' y hs
        exact absurd hs (not_succeeds_of_isLast hu.toIsLast)
      · obtain ⟨hfree, hp⟩ := h.owners.unowned_allocate i (s.content x.persister)
        refine ⟨a, _, ⟨hu.toIsLast.modify (fun _ => rfl), hu.raft⟩, hserver, _, _,
          Function.update_self _ _ _, ⟨hfree.1, ?_⟩, hp, rfl⟩
        intro y hy
        cases mem_modify_cases hy with
        | inl hy => exact hfree.2 y hy
        | inr hy =>
            obtain ⟨z, hz, rfl⟩ := hy
            exact hfree.2 z (List.mem_of_getElem? hz)
      · intro j hj
        refine (same_allocate (s.content x.persister) hj).trans ?_
        exact same_modify (s := s.allocate i (s.content x.persister))
          (f := fun x' => { x' with final := some (s.content x.persister) }) hu.entry hu.name
          (fun _ => rfl) (fun _ => rfl) hj rfl
  | named | renewed | made | running | copied => cases hn

theorem carried_kill (h : s.PointersOk) (hi : s.Holds i stage)
    (hn : (Op.kill i : Op n ε).next stage = some next) :
    Carried s (s.exec (.kill i)) i next := by
  cases stage with
  | stopped =>
      cases hn
      have hdown : s.Down i := hi
      have heq : s.exec (.kill i) = s := by simp only [exec, hdown.raft]
      rw [heq]
      exact ⟨h, hi, fun j _ => (withTask_sameInstances s.task).same j⟩
  | copied =>
      cases hn
      obtain ⟨a, x, hu, hserver, q, p, hsaved, hfree, hp, hfinal⟩ := hi
      have heq : s.exec (.kill i) = { s with
          rafts := Function.update s.rafts i none
          instances := s.instances.modify a fun x => { x with killed := true } } := by
        simp only [exec, hu.raft]
      rw [heq]
      refine ⟨⟨h.saved, h.owners.modify a (fun _ => rfl), ?_, ?_⟩, ?_, ?_⟩
      · exact h.servers.modify (fun _ => rfl) (fun _ _ _ _ _ => ⟨rfl, rfl⟩)
      · exact HandedOn.modify h.handed a (fun _ => rfl) (fun _ => rfl) (fun _ _ _ _ => rfl)
      · refine ⟨Function.update_self _ _ _, hserver, ?_, ?_⟩
        · intro q' hq'
          obtain rfl := Option.some.inj (hsaved.symm.trans hq')
          refine ⟨hfree.1, ?_⟩
          intro y hy
          cases mem_modify_cases hy with
          | inl hy => exact hfree.2 y hy
          | inr hy =>
              obtain ⟨z, hz, rfl⟩ := hy
              exact hfree.2 z (List.mem_of_getElem? hz)
        · intro b y hl
          have hlast := hu.toIsLast.modify (f := fun x => { x with killed := true })
            (fun _ => rfl)
          obtain ⟨_, rfl⟩ := hl.unique hlast
          exact ⟨q, p, hsaved, hp, hfinal⟩
      · intro j hj
        exact same_modify (f := fun x => { x with killed := true }) hu.entry hu.name
          (fun _ => rfl) (fun _ => rfl) hj (Function.update_of_ne hj _ _)
  | named | renewed | made | running | cut => cases hn

theorem carried_saveAnew (h : s.PointersOk) (hi : s.Holds i stage)
    (hn : (Op.saveAnew i : Op n ε).next stage = some next) :
    Carried s (s.exec (.saveAnew i)) i next := by
  cases stage with
  | stopped =>
      cases hn
      have hdown : s.Down i := hi
      cases hq : s.saved i with
      | none =>
          have heq : s.exec (.saveAnew i) = s := by simp only [exec, hq]
          rw [heq]
          exact ⟨h, hi, fun j _ => (withTask_sameInstances s.task).same j⟩
      | some q =>
          have heq : s.exec (.saveAnew i) = s.allocate i (s.content q) := by
            simp only [exec, hq]
          rw [heq]
          exact ⟨h.allocate i _, hdown.allocate h.owners hq, fun j hj => same_allocate _ hj⟩
  | named | renewed | made | running | cut | copied => cases hn

theorem carried_renewSaved (h : s.PointersOk) (hi : s.Holds i stage)
    (hn : (Op.renewSaved i : Op n ε).next stage = some next) :
    Carried s (s.exec (.renewSaved i)) i next := by
  cases stage with
  | named =>
      cases hn
      obtain ⟨hdown, hnames⟩ := hi
      cases hq : s.saved i with
      | none =>
          have heq : s.exec (.renewSaved i) = s.allocate i makePersister := by
            simp only [exec, hq]
          rw [heq]
          refine ⟨h.allocate i _, ⟨hdown.allocate_first h.owners hq _, hnames, ?_⟩,
            fun j hj => same_allocate _ hj⟩
          simp [allocate]
      | some q =>
          have heq : s.exec (.renewSaved i) = s.allocate i (s.content q) := by
            simp only [exec, hq]
          rw [heq]
          refine ⟨h.allocate i _, ⟨hdown.allocate h.owners hq, hnames, ?_⟩,
            fun j hj => same_allocate _ hj⟩
          simp [allocate]
  | stopped | renewed | made | running | cut | copied => cases hn

/-- `Make` reads what was copied from the instance before. -/
theorem carried_make (h : s.PointersOk) (hi : s.Holds i stage)
    (hn : (Op.make i : Op n ε).next stage = some next) :
    Carried s (s.exec (.make i)) i next := by
  cases stage with
  | renewed =>
      cases hn
      obtain ⟨hdown, hnames, hq⟩ := hi
      obtain ⟨names, hnames⟩ := Option.isSome_iff_exists.mp hnames
      obtain ⟨q, hq⟩ := Option.isSome_iff_exists.mp hq
      have hfree := hdown.free q hq
      have heq : s.exec (.make i) = { s with
          rafts := Function.update s.rafts i (some s.instances.length)
          instances := s.instances ++ [⟨i, names, q, none, false, s.content q, none⟩] } := by
        simp only [exec, hq, hnames]
      rw [heq]
      refine ⟨⟨h.saved, h.owners.append hfree.1 hfree.2, h.servers.append rfl, ?_⟩, ?_, ?_⟩
      · intro a b x y hs
        cases hs.append_cases with
        | inl hs => exact h.handed a b x y hs
        | inr hnew =>
            obtain ⟨rfl, hlast⟩ := hnew
            obtain ⟨q', p, hq', hp, hfinal⟩ := hdown.handed a x hlast
            obtain rfl := Option.some.inj (hq.symm.trans hq')
            rw [getElem?_content hfree.1] at hp
            exact hfinal.trans hp.symm
      · exact ⟨_, _, ⟨IsLast.append rfl, Function.update_self _ _ _⟩, hq, rfl, hdown.server, rfl⟩
      · intro j hj
        refine ⟨Function.update_of_ne hj _ _, rfl, id, id, entries_append hj.symm, ?_⟩
        intro q' hq' hfree'
        refine ⟨⟨hfree'.1, ?_⟩, rfl⟩
        intro x hx
        cases List.mem_append.mp hx with
        | inl hx => exact hfree'.2 x hx
        | inr hx =>
            obtain rfl := List.mem_singleton.mp hx
            rintro rfl
            exact hj (h.saved.once j i _ hq' hq)
  | stopped | named | made | running | cut | copied => cases hn

theorem carried_addServer (h : s.PointersOk) (svc : Service) (hi : s.Holds i stage)
    (hn : (Op.addServer i svc : Op n ε).next stage = some next) :
    Carried s (s.exec (.addServer i svc)) i next := by
  cases stage with
  | made =>
      cases hn
      obtain ⟨a, x, hu, hsaved, hfinal, hserver, hx⟩ := hi
      obtain ⟨hservers, hheap⟩ := setUp_addServer s.net i svc
      have heq : s.exec (.addServer i svc) = { s with
          net := setUp (setUp (setUp s.net .makeServer) (.addService s.net.heap.length svc))
            (.addServer i s.net.heap.length)
          instances := s.instances.modify a
            fun x => { x with server := some s.net.heap.length } } := by
        simp only [exec, hu.raft]
      rw [heq]
      refine ⟨⟨h.saved, h.owners.modify a (fun _ => rfl), ?_, ?_⟩, ?_, ?_⟩
      · simp only [hservers, hheap]
        have hadd := h.servers.add hu.entry hfinal
        rw [hu.name] at hadd
        exact hadd
      · exact HandedOn.modify h.handed a (fun _ => rfl) (fun _ => rfl) (fun _ _ _ _ => rfl)
      · exact ⟨a, _, ⟨hu.toIsLast.modify (fun _ => rfl), hu.raft⟩, hsaved, hfinal⟩
      · intro j hj
        have hmod := same_modify (f := fun x => { x with server := some s.net.heap.length })
          hu.entry hu.name (fun _ => rfl) (fun _ => rfl) hj (rfl : s.rafts j = s.rafts j)
        refine ⟨hmod.rafts, hmod.saved, ?_, hmod.endnames, hmod.entries, hmod.free⟩
        intro hnone
        simp only [hservers, Function.update_of_ne hj]
        exact hnone
  | stopped | named | renewed | running | cut | copied => cases hn

theorem carried_exec (h : s.PointersOk) {op : Op n ε} (hi : s.Holds op.name stage)
    (hn : op.next stage = some next) : Carried s (s.exec op) op.name next := by
  cases op with
  | setConnected i yes =>
      rw [Op.next_of_links rfl] at hn
      cases hn
      have hl : SameInstances s (s.exec (.setConnected i yes)) :=
        ⟨rfl, rfl, rfl, rfl, fun _ => id, rfl, rfl⟩
      exact hl.carried h hi
  | enableOut i j enabled =>
      rw [Op.next_of_links rfl] at hn
      cases hn
      exact (enable_sameInstances _ _ _ _).carried h hi
  | enableIn i j enabled =>
      rw [Op.next_of_links rfl] at hn
      cases hn
      exact (enable_sameInstances _ _ _ _).carried h hi
  | deleteServer i => exact carried_deleteServer h hi hn
  | copySaved i => exact carried_copySaved h hi hn
  | kill i => exact carried_kill h hi hn
  | saveAnew i => exact carried_saveAnew h hi hn
  | makeEnds i names => exact carried_makeEnds h names hi hn
  | renewSaved i => exact carried_renewSaved h hi hn
  | make i => exact carried_make h hi hn
  | addServer i svc => exact carried_addServer h svc hi hn

end Operations

end Config
end RaftLab
