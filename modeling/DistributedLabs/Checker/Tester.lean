import DistributedLabs.Checker.Ledger

/-!
The stress tester and the store it tests. A client that writes reads the clock, calls
`BeginWrite`, sets the value, reads the clock again and calls `CompleteWrite`; a client
that reads does the same with `BeginRead` and `CheckReadCorrect`. The store is the ideal
one: an operation takes effect at one instant between the two calls of the checker, and
a value is visible for exactly its TTL unless a later write takes effect. A set that
returned an error may have taken effect or not, also after it returned.
-/

namespace CheckerLab

/-- A client's view of its write: the result is the error with the clock read after it. -/
structure SetCall where
  ttl : Int
  startTime : Int
  effect : Option Int
  result : Option (Option String × Int)
  deriving DecidableEq

structure Stored (V : Type) where
  value : V
  since : Int
  ttl : Int

/-- What the read returned is kept with the instant at which it took effect. -/
structure ReadCall (K V : Type) where
  key : K
  startTime : Int
  initialVersion : Int
  writesPending : Bool
  seen : Option (Option V × Int)

structure Tester (K V : Type) where
  ledger : Ledger K V SetCall
  now : Int
  store : K → Option (Stored V)
  reads : List (ReadCall K V)
  reports : List (CheckError V)

inductive TestEvent (K V : Type) where
  | tick (d : Nat)
  | beginWrite (key : K) (value : V) (ttl startTime : Int)
  | setEffect (i : Nat)
  | setReturn (i : Nat) (err : Option String)
  | completeWrite (i : Nat)
  | beginRead (key : K) (startTime : Int)
  | getEffect (j : Nat)
  | checkRead (j : Nat)

/-- The value that a read at the given time, which is not before `since`, returns. -/
def Stored.visible {V : Type} (now : Int) (e : Stored V) : Option V :=
  if now < e.since + e.ttl then some e.value else none

namespace Tester

variable {K V : Type} [DecidableEq K] [DecidableEq V]

def writeStep (s : Tester K V) (flags : Flags) (e : WriteEvent K V SetCall) :
    Option (Tester K V) :=
  (s.ledger.step flags e).map fun ledger => { s with ledger }

def beginWrite (s : Tester K V) (flags : Flags) (key : K) (value : V)
    (ttl startTime : Int) : Option (Tester K V) :=
  if startTime ≤ s.now then
    s.writeStep flags (.beginWrite key value ⟨ttl, startTime, none, none⟩)
  else none

def setEffect (s : Tester K V) (flags : Flags) (i : Nat) : Option (Tester K V) :=
  match s.ledger.active[i]? with
  | none => none
  | some w =>
      if w.client.effect = none then
        let e : Stored V := ⟨w.value, s.now, w.client.ttl⟩
        (s.writeStep flags (.progress i { w.client with effect := some s.now })).map
          fun t => { t with store := Function.update s.store w.key (some e) }
      else none

def setReturn (s : Tester K V) (flags : Flags) (i : Nat) (err : Option String) :
    Option (Tester K V) :=
  match s.ledger.active[i]? with
  | none => none
  | some w =>
      if w.client.result = none then
        s.writeStep flags (.progress i { w.client with result := some (err, s.now) })
      else none

/-- A set that succeeded has taken effect by the time its client reports it. -/
def completeWrite (s : Tester K V) (flags : Flags) (i : Nat) : Option (Tester K V) :=
  match s.ledger.active[i]? with
  | none => none
  | some w =>
      match w.client.result with
      | none => none
      | some (err, endTime) =>
          if err = none ∧ w.client.effect = none then none
          else s.writeStep flags (.completeWrite i err (w.client.startTime + w.client.ttl)
            (endTime + w.client.ttl) s.now)

def beginRead (s : Tester K V) (flags : Flags) (key : K) (startTime : Int) :
    Option (Tester K V) :=
  if startTime ≤ s.now then
    let r := s.ledger.cc.beginRead flags key
    some { s with reads := s.reads ++ [⟨key, startTime, r.1, r.2, none⟩] }
  else none

def getEffect (s : Tester K V) (j : Nat) : Option (Tester K V) :=
  match s.reads[j]? with
  | none => none
  | some r =>
      if r.seen.isNone then
        let value := (s.store r.key).bind (·.visible s.now)
        some { s with reads := s.reads.set j { r with seen := some (value, s.now) } }
      else none

/-- A read that found nothing passes the empty value. -/
def checkRead [Inhabited V] (s : Tester K V) (flags : Flags) (j : Nat) :
    Option (Tester K V) :=
  match s.reads[j]? with
  | none => none
  | some r =>
      match r.seen with
      | none => none
      | some (value, _) =>
          let res := s.ledger.cc.checkReadCorrect flags r.key (value.getD default)
            value.isSome r.startTime r.initialVersion r.writesPending s.now
          some { s with
            ledger := { s.ledger with cc := res.1 }
            reads := s.reads.eraseIdx j
            reports := s.reports ++ res.2.toList }

def step [Inhabited V] (s : Tester K V) (flags : Flags) :
    TestEvent K V → Option (Tester K V)
  | .tick d => some { s with now := s.now + d }
  | .beginWrite key value ttl startTime => s.beginWrite flags key value ttl startTime
  | .setEffect i => s.setEffect flags i
  | .setReturn i err => s.setReturn flags i err
  | .completeWrite i => s.completeWrite flags i
  | .beginRead key startTime => s.beginRead flags key startTime
  | .getEffect j => s.getEffect j
  | .checkRead j => s.checkRead flags j

/-- What an event needs and what it changes. -/
inductive Step [Inhabited V] (flags : Flags) (s : Tester K V) :
    TestEvent K V → Tester K V → Prop
  | tick {d : Nat} : Step flags s (.tick d) { s with now := s.now + d }
  | beginWrite {key : K} {value : V} {ttl startTime : Int} {ledger : Ledger K V SetCall}
      (ht : startTime ≤ s.now) (hl : s.ledger.step flags
        (.beginWrite key value ⟨ttl, startTime, none, none⟩) = some ledger) :
      Step flags s (.beginWrite key value ttl startTime) { s with ledger }
  | setEffect {i : Nat} {w : Call K V SetCall} {ledger : Ledger K V SetCall}
      (hw : s.ledger.active[i]? = some w) (he : w.client.effect = none)
      (hl : s.ledger.step flags (.progress i { w.client with effect := some s.now }) =
        some ledger) :
      Step flags s (.setEffect i) { s with
        ledger
        store := Function.update s.store w.key (some ⟨w.value, s.now, w.client.ttl⟩) }
  | setReturn {i : Nat} {err : Option String} {w : Call K V SetCall}
      {ledger : Ledger K V SetCall}
      (hw : s.ledger.active[i]? = some w) (hr : w.client.result = none)
      (hl : s.ledger.step flags (.progress i { w.client with result := some (err, s.now) }) =
        some ledger) :
      Step flags s (.setReturn i err) { s with ledger }
  | completeWrite {i : Nat} {err : Option String} {endTime : Int} {w : Call K V SetCall}
      {ledger : Ledger K V SetCall} (hw : s.ledger.active[i]? = some w)
      (hr : w.client.result = some (err, endTime))
      (hok : err = none → w.client.effect ≠ none)
      (hl : s.ledger.step flags (.completeWrite i err (w.client.startTime + w.client.ttl)
        (endTime + w.client.ttl) s.now) = some ledger) :
      Step flags s (.completeWrite i) { s with ledger }
  | beginRead {key : K} {startTime : Int} (ht : startTime ≤ s.now) :
      Step flags s (.beginRead key startTime) { s with
        reads := s.reads ++ [⟨key, startTime, (s.ledger.cc.beginRead flags key).1,
          (s.ledger.cc.beginRead flags key).2, none⟩] }
  | getEffect {j : Nat} {r : ReadCall K V} (hr : s.reads[j]? = some r) :
      Step flags s (.getEffect j) { s with reads := s.reads.set j { r with
        seen := some ((s.store r.key).bind (·.visible s.now), s.now) } }
  | checkRead {j : Nat} {r : ReadCall K V} {value : Option V} {seenAt : Int}
      {cc : ConsistencyChecker K V} {err : Option (CheckError V)}
      (hr : s.reads[j]? = some r) (hs : r.seen = some (value, seenAt))
      (hcc : s.ledger.cc.checkReadCorrect flags r.key (value.getD default) value.isSome
        r.startTime r.initialVersion r.writesPending s.now = (cc, err)) :
      Step flags s (.checkRead j) { s with
        ledger := { s.ledger with cc }
        reads := s.reads.eraseIdx j
        reports := s.reports ++ err.toList }

theorem writeStep_eq_some {s t : Tester K V} {flags : Flags}
    {e : WriteEvent K V SetCall} (h : s.writeStep flags e = some t) :
    ∃ ledger, s.ledger.step flags e = some ledger ∧ t = { s with ledger } := by
  obtain ⟨ledger, hl, rfl⟩ := Option.map_eq_some_iff.mp h
  exact ⟨ledger, hl, rfl⟩

theorem step_cases [Inhabited V] {s t : Tester K V} {flags : Flags} {e : TestEvent K V}
    (h : s.step flags e = some t) : Step flags s e t := by
  cases e with
  | tick d =>
      obtain rfl := Option.some.inj h
      exact .tick
  | beginWrite key value ttl startTime =>
      simp only [step, Tester.beginWrite] at h
      split at h
      · obtain ⟨ledger, hl, rfl⟩ := writeStep_eq_some h
        exact .beginWrite ‹_› hl
      · cases h
  | setEffect i =>
      simp only [step, Tester.setEffect] at h
      split at h
      · cases h
      · split at h
        · obtain ⟨u, hu, rfl⟩ := Option.map_eq_some_iff.mp h
          obtain ⟨ledger, hl, rfl⟩ := writeStep_eq_some hu
          exact .setEffect ‹_› ‹_› hl
        · cases h
  | setReturn i err =>
      simp only [step, Tester.setReturn] at h
      split at h
      · cases h
      · split at h
        · obtain ⟨ledger, hl, rfl⟩ := writeStep_eq_some h
          exact .setReturn ‹_› ‹_› hl
        · cases h
  | completeWrite i =>
      simp only [step, Tester.completeWrite] at h
      split at h
      · cases h
      · split at h
        · cases h
        · split at h
          · cases h
          · rename_i hok
            obtain ⟨ledger, hl, rfl⟩ := writeStep_eq_some h
            exact .completeWrite ‹_› ‹_› (fun he hn => hok ⟨he, hn⟩) hl
  | beginRead key startTime =>
      simp only [step, Tester.beginRead] at h
      split at h <;> cases h
      exact .beginRead ‹_›
  | getEffect j =>
      simp only [step, Tester.getEffect] at h
      split at h
      · cases h
      · split at h <;> cases h
        exact .getEffect ‹_›
  | checkRead j =>
      simp only [step, Tester.checkRead] at h
      split at h
      · cases h
      · split at h <;> cases h
        exact .checkRead ‹_› ‹_› rfl

/-- A value is used for one write to a key only. -/
def FreshValue (s : Tester K V) : TestEvent K V → Prop
  | .beginWrite key value ttl startTime =>
      s.ledger.FreshValue (.beginWrite key value ⟨ttl, startTime, none, none⟩)
  | _ => True

instance (s : Tester K V) (e : TestEvent K V) : Decidable (s.FreshValue e) :=
  match e with
  | .beginWrite key value ttl startTime => inferInstanceAs (Decidable
      (s.ledger.FreshValue (.beginWrite key value ⟨ttl, startTime, none, none⟩)))
  | .tick _ | .setEffect _ | .setReturn _ _ | .completeWrite _ | .beginRead _ _
  | .getEffect _ | .checkRead _ => isTrue trivial

end Tester

/-- The tester, its clients and the store, from an empty store at a given time. -/
def stressTest (K V : Type) [DecidableEq K] [DecidableEq V] [Inhabited V] (flags : Flags)
    (start : Int) : Machine (Tester K V) (TestEvent K V) where
  init := ⟨(writes K V SetCall flags).init, start, fun _ => none, [], []⟩
  step := fun s e => s.step flags e

end CheckerLab
