import DistributedLabs.Kv.SessionInvariant

/-!
What a `Get` may return when calls overlap and requests fail. A server answers with the last
write that it carried out. An acknowledged write was carried out by every node of its key
before it returned, and a call that started later is carried out later. So a `Get` does not
see an acknowledged write if another one started after it and was acknowledged before the
`Get` started.
-/

namespace KvLab

variable {sm : ShardMapState} {s t : Sessions}

namespace Sessions

def Acknowledged (s : Sessions) (k : Nat) : Prop := ∃ c e, s.calls[k]? = some c ∧ c.AckedAt e

/-- Call `i` was acknowledged before call `j` started. -/
def Precedes (h : List Sessions) (i j : Nat) : Prop :=
  ∃ t ∈ h, t.Acknowledged i ∧ t.calls.length ≤ j

def IsFor (s : Sessions) (key : GoString) (k : Nat) : Prop :=
  ∃ c, s.calls[k]? = some c ∧ c.op.key = key

end Sessions

open Sessions

section Runs

variable {servers : GoString → KvServerImpl} {now : Int} {h : List Sessions}

theorem sessions_init_ok (hempty : ∀ node key, (servers node).held sm.numShards key = none) :
    (sessions sm servers now).init.Ok sm where
  calls := fun k c hk => by cases hk
  applied := fun a ha => absurd ha List.not_mem_nil
  entries := fun node key _ => hempty node key

theorem sessions_ok (hempty : ∀ node key, (servers node).held sm.numShards key = none)
    (run : (sessions sm servers now).Run (fun _ _ => True) h) : ∀ s ∈ h, s.Ok sm :=
  run.invariant (I := Sessions.Ok sm) (sessions_init_ok hempty)
    (fun s _ _ hok _ hs => hok.step (s.step_cases hs))

theorem sessions_grow (hempty : ∀ node key, (servers node).held sm.numShards key = none)
    (run : (sessions sm servers now).Run (fun _ _ => True) h) :
    h.Pairwise fun newer older => older.Grows newer :=
  run.pairwise (I := Sessions.Ok sm) (R := Sessions.Grows) (sessions_init_ok hempty)
    (fun s _ _ hok _ hs => hok.step (s.step_cases hs)) (fun _ _ _ => .trans)
    (fun s _ _ hok _ hs => hok.grows (s.step_cases hs))

theorem grows_of_length_lt (hempty : ∀ node key, (servers node).held sm.numShards key = none)
    (run : (sessions sm servers now).Run (fun _ _ => True) h) {u v : Sessions} (hu : u ∈ h)
    (hv : v ∈ h) (hlt : u.calls.length < v.calls.length) : u.Grows v := by
  have hpair : h.Pairwise fun a b => b.Grows a ∨ a.Grows b :=
    (sessions_grow hempty run).imp fun hab => Or.inl hab
  have hsymm : Std.Symm fun a b : Sessions => b.Grows a ∨ a.Grows b := ⟨fun _ _ => Or.symm⟩
  have hne : u ≠ v := fun heq => absurd hlt (heq ▸ Nat.lt_irrefl _)
  rcases hpair.forall hu hv hne with hvu | huv
  · exact absurd hvu.length_le (by omega)
  · exact huv

theorem mem_or_grows (hempty : ∀ node key, (servers node).held sm.numShards key = none)
    (run : (sessions sm servers now).Run (fun _ _ => True) (s :: h)) {u : Sessions}
    (hu : u ∈ s :: h) {k : Nat} {c : Session} (hk : u.calls[k]? = some c) :
    ∃ c', s.calls[k]? = some c' ∧ c.Later u.now c' := by
  cases hu with
  | head => exact ⟨c, hk, .refl _ c⟩
  | tail _ hu => exact (List.rel_of_pairwise_cons (sessions_grow hempty run) hu).calls k c hk

/-- A write that was acknowledged before a call started had been carried out on each node of
its key, and is found in every state in which that call has started. -/
theorem Sessions.Precedes.recorded
    (hempty : ∀ node key, (servers node).held sm.numShards key = none)
    (run : (sessions sm servers now).Run (fun _ _ => True) (s :: h)) {u : Sessions}
    (hu : u ∈ s :: h) {j g : Nat} (hlt : g < u.calls.length) {key node : GoString}
    (hj : s.IsFor key j) (hnode : node ∈ sm.nodesForKey key) (hp : Precedes (s :: h) j g) :
    ∃ t ∈ s :: h, t.Grows u ∧ j < t.calls.length ∧
      ∃ b ∈ u.applied, b.call = j ∧ u.writes node key b = true := by
  obtain ⟨t, ht, ⟨d, e, hd, hack⟩, hlen⟩ := hp
  obtain ⟨d', hd', hkey⟩ := hj
  have hgrow := grows_of_length_lt hempty run ht hu (Nat.lt_of_le_of_lt hlen hlt)
  obtain ⟨d'', hd'', hl⟩ := mem_or_grows hempty run ht hd
  obtain rfl := Option.some.inj (hd'.symm.trans hd'')
  have hdkey : d.op.key = key := hl.op ▸ hkey
  obtain ⟨b, hb, hbcall, hbnode⟩ :=
    ((sessions_ok hempty run t ht).calls j d hd |>.acked hack).2 node (hdkey ▸ hnode)
  refine ⟨t, ht, hgrow, (List.getElem?_eq_some_iff.mp hd).1, b, hgrow.subset hb, hbcall, ?_⟩
  obtain ⟨d₁, hd₁, hl₁⟩ := hgrow.calls j d hd
  simp [writes, hbnode, hbcall, hd₁, hl₁.op, hdkey]

end Runs

end KvLab
