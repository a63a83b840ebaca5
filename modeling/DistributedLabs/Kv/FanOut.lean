import DistributedLabs.Kv.Failover
import DistributedLabs.Library.Phases

/-!
`Set` and `Delete` of the client. The call starts one goroutine for every node, waits for
all of them, closes the error channel and takes one error from it if there is one. A
goroutine gets a client, sends the request and reports an error on the channel, which has
room for one error per node. The steps of the goroutines interleave with each other and
with the loop that starts them.
-/

namespace KvLab

open GoTime

/-- The goroutine of one node. A client that it could not get is an error as well. -/
inductive SenderPhase where
  | started
  | connected
  | requested
  | failing (err : CallErr)
  | ending
  | done
  deriving DecidableEq

inductive CallerPhase where
  | starting
  | spawning
  | closing
  | receiving
  | returned (err : Option CallErr)
  deriving DecidableEq

/-- A request that was sent, with the number of the goroutine that sent it. -/
structure SentRequest where
  goroutine : Nat
  node : GoString
  request : Request
  deriving DecidableEq

structure FanOut where
  caller : CallerPhase
  goroutines : List SenderPhase
  wg : Nat
  errorHandle : List CallErr
  closed : Bool
  requests : List SentRequest
  panicked : Bool

inductive FanOutEvent where
  | start
  | spawn
  | wait
  | close
  | receive
  | getClient (i : Nat)
  | request (i : Nat)
  | answer (i : Nat)
  | report (i : Nat)
  | done (i : Nat)

namespace Attempt

variable {ρ : Type}

def onClient : Attempt ρ → SenderPhase
  | .noClient err => .failing err
  | .failed _ | .answered _ => .connected

def onAnswer : Attempt ρ → SenderPhase
  | .failed err => .failing err
  | .noClient _ | .answered _ => .ending

/-- `GetClient` succeeds. -/
def connects : Attempt ρ → Bool
  | .noClient _ => false
  | .failed _ | .answered _ => true

end Attempt

namespace FanOut

variable (request : Request) (nodes : List GoString) (attempts : Nat → Attempt Unit)
  (s : FanOut)

def move (i : Nat) (phase : SenderPhase) : FanOut :=
  { s with goroutines := s.goroutines.set i phase }

/-- A send on a full channel blocks, and a send on a closed one panics. -/
def report (i : Nat) (err : CallErr) : Option FanOut :=
  if s.closed then some { s with panicked := true }
  else if s.errorHandle.length < nodes.length then
    some { s.move i .ending with errorHandle := s.errorHandle ++ [err] }
  else none

/-- A counter of the wait group below zero panics. -/
def wgDone (i : Nat) : FanOut :=
  if s.wg = 0 then { s with panicked := true }
  else { s.move i .done with wg := s.wg - 1 }

def step (e : FanOutEvent) : Option FanOut :=
  if s.panicked then none
  else
    match e, s.caller with
    | .start, .starting =>
        if nodes.length = 0 then some { s with caller := .returned (some noNodes) }
        else some { s with caller := .spawning }
    | .spawn, .spawning =>
        if s.goroutines.length < nodes.length then
          some { s with goroutines := s.goroutines ++ [.started], wg := s.wg + 1 }
        else none
    | .wait, .spawning =>
        if s.goroutines.length = nodes.length ∧ s.wg = 0 then
          some { s with caller := .closing }
        else none
    | .close, .closing => some { s with closed := true, caller := .receiving }
    | .receive, .receiving =>
        some { s with caller := .returned s.errorHandle.head?,
                      errorHandle := s.errorHandle.tail }
    | .getClient i, _ =>
        match s.goroutines[i]? with
        | some .started => some (s.move i (attempts i).onClient)
        | _ => none
    | .request i, _ =>
        match s.goroutines[i]?, nodes[i]? with
        | some .connected, some node =>
            some { s.move i .requested with requests := s.requests ++ [⟨i, node, request⟩] }
        | _, _ => none
    | .answer i, _ =>
        match s.goroutines[i]? with
        | some .requested => some (s.move i (attempts i).onAnswer)
        | _ => none
    | .report i, _ =>
        match s.goroutines[i]? with
        | some (.failing err) => s.report nodes i err
        | _ => none
    | .done i, _ =>
        match s.goroutines[i]? with
        | some .ending => some (s.wgDone i)
        | _ => none
    | _, _ => none

/-- What a step needs and what it leads to. -/
inductive Step : FanOutEvent → FanOut → Prop
  | noNodes (hc : s.caller = .starting) (hn : nodes = []) :
      Step .start { s with caller := .returned (some noNodes) }
  | start (hc : s.caller = .starting) (hn : nodes ≠ []) :
      Step .start { s with caller := .spawning }
  | spawn (hc : s.caller = .spawning) (hn : s.goroutines.length < nodes.length) :
      Step .spawn { s with goroutines := s.goroutines ++ [.started], wg := s.wg + 1 }
  | wait (hc : s.caller = .spawning) (hn : s.goroutines.length = nodes.length)
      (hw : s.wg = 0) : Step .wait { s with caller := .closing }
  | close (hc : s.caller = .closing) :
      Step .close { s with closed := true, caller := .receiving }
  | receive (hc : s.caller = .receiving) :
      Step .receive { s with caller := .returned s.errorHandle.head?,
                             errorHandle := s.errorHandle.tail }
  | getClient {i : Nat} (hi : s.goroutines[i]? = some .started) :
      Step (.getClient i) (s.move i (attempts i).onClient)
  | request {i : Nat} {node : GoString} (hi : s.goroutines[i]? = some .connected)
      (hn : nodes[i]? = some node) :
      Step (.request i)
        { s.move i .requested with requests := s.requests ++ [⟨i, node, request⟩] }
  | answer {i : Nat} (hi : s.goroutines[i]? = some .requested) :
      Step (.answer i) (s.move i (attempts i).onAnswer)
  | report {i : Nat} {err : CallErr} (hi : s.goroutines[i]? = some (.failing err))
      (hc : s.closed = false) (hr : s.errorHandle.length < nodes.length) :
      Step (.report i) { s.move i .ending with errorHandle := s.errorHandle ++ [err] }
  | reportClosed {i : Nat} {err : CallErr} (hi : s.goroutines[i]? = some (.failing err))
      (hc : s.closed = true) : Step (.report i) { s with panicked := true }
  | done {i : Nat} (hi : s.goroutines[i]? = some .ending) (hw : s.wg ≠ 0) :
      Step (.done i) { s.move i .done with wg := s.wg - 1 }
  | doneNegative {i : Nat} (hi : s.goroutines[i]? = some .ending) (hw : s.wg = 0) :
      Step (.done i) { s with panicked := true }

theorem step_cases {s t : FanOut} {e : FanOutEvent}
    (h : s.step request nodes attempts e = some t) : s.Step request nodes attempts e t := by
  unfold step at h
  split at h
  · cases h
  · split at h
    · split at h <;> cases h
      · exact .noNodes ‹_› (List.length_eq_zero_iff.mp ‹_›)
      · rename_i hlen
        exact .start ‹_› (fun hn => hlen (List.length_eq_zero_iff.mpr hn))
    · split at h <;> cases h
      exact .spawn ‹_› ‹_›
    · split at h
      · rename_i hw
        cases h
        exact .wait ‹_› hw.1 hw.2
      · cases h
    · cases h
      exact .close ‹_›
    · cases h
      exact .receive ‹_›
    · split at h <;> cases h
      exact .getClient ‹_›
    · split at h <;> cases h
      exact .request ‹_› ‹_›
    · split at h <;> cases h
      exact .answer ‹_›
    · split at h
      · unfold report at h
        split at h
        · cases h
          exact .reportClosed ‹_› ‹_›
        · split at h <;> cases h
          exact .report ‹_› (Bool.eq_false_iff.mpr ‹_›) ‹_›
      · cases h
    · split at h
      · cases h
        unfold wgDone
        split
        · exact .doneNegative ‹_› ‹_›
        · exact .done ‹_› ‹_›
      · cases h
    · cases h

end FanOut

/-- The fan-out of one request to the nodes of a shard. -/
def fanOut (request : Request) (nodes : List GoString) (attempts : Nat → Attempt Unit) :
    Machine FanOut FanOutEvent where
  init := ⟨.starting, [], 0, [], false, [], false⟩
  step s e := s.step request nodes attempts e

def kvSet (key value : GoString) (ttl : Duration) (nodes : List GoString)
    (attempts : Nat → Attempt Unit) : Machine FanOut FanOutEvent :=
  fanOut (.set key value (milliseconds ttl.ns)) nodes attempts

def kvDelete (key : GoString) (nodes : List GoString) (attempts : Nat → Attempt Unit) :
    Machine FanOut FanOutEvent :=
  fanOut (.delete key) nodes attempts

namespace SenderPhase

variable (attempt : Attempt Unit)

/-- The goroutine has sent its request. -/
def hasSent : SenderPhase → Bool
  | .started | .connected => false
  | .requested => true
  | .failing _ | .ending | .done => attempt.connects

/-- The goroutine has nothing left to report. -/
def finished : SenderPhase → Bool
  | .ending | .done => true
  | .started | .connected | .requested | .failing _ => false

/-- The goroutine has not called `Done`. -/
def running : SenderPhase → Bool
  | .done => false
  | .started | .connected | .requested | .failing _ | .ending => true

/-- The goroutine is where its node can have brought it. -/
def Agrees : SenderPhase → Prop
  | .connected | .requested => attempt.connects = true
  | .failing err => attempt.err = some err
  | .started | .ending | .done => True

end SenderPhase

section Attempts

variable {attempt : Attempt Unit}

theorem agrees_onClient : attempt.onClient.Agrees attempt := by
  cases attempt with
  | noClient err | failed err => rfl
  | answered response => rfl

theorem hasSent_onClient : attempt.onClient.hasSent attempt = false := by
  cases attempt with
  | noClient err | failed err => rfl
  | answered response => rfl

theorem agrees_onAnswer : attempt.onAnswer.Agrees attempt := by
  cases attempt with
  | noClient err | answered response => exact trivial
  | failed err => rfl

theorem hasSent_onAnswer (h : attempt.connects = true) :
    attempt.onAnswer.hasSent attempt = true := by
  cases attempt with
  | noClient err => cases h
  | failed err | answered response => rfl

/-- A goroutine that ends without a report has no error. -/
theorem err_of_finished_onAnswer (h : attempt.connects = true)
    (hf : attempt.onAnswer.finished = true) : attempt.err = none := by
  cases attempt with
  | noClient err => cases h
  | failed err => cases hf
  | answered response => rfl

end Attempts

namespace FanOut

variable (request : Request) (nodes : List GoString) (attempts : Nat → Attempt Unit)
  (s : FanOut)

/-- The requests that a goroutine has sent. -/
def sentFrom (i : Nat) : List SentRequest :=
  s.requests.filter fun sent => sent.goroutine = i

def hasSent (i : Nat) : Bool :=
  (s.goroutines[i]?.map fun phase => phase.hasSent (attempts i)).getD false

/-- The request to a node, once. -/
def requestTo (i : Nat) : List SentRequest :=
  (nodes[i]?.map fun node => ⟨i, node, request⟩).toList

/-- Every node has had its goroutine, and all of them have ended. -/
def AllDone : Prop :=
  s.goroutines.length = nodes.length ∧ ∀ phase ∈ s.goroutines, phase = .done

/-- Nil if there are nodes and all of them succeed, and else the error of one of them or
the error for no nodes. -/
def Justified : Option CallErr → Prop
  | none => nodes ≠ [] ∧ ∀ i < nodes.length, (attempts i).err = none
  | some err => nodes = [] ∧ err = noNodes ∨
      ∃ i < nodes.length, (attempts i).err = some err

def CallerOk : CallerPhase → Prop
  | .starting => s.goroutines = [] ∧ s.closed = false ∧ s.errorHandle = []
  | .spawning => nodes ≠ [] ∧ s.closed = false
  | .closing => nodes ≠ [] ∧ s.closed = false ∧ s.AllDone nodes
  | .receiving => nodes ≠ [] ∧ s.AllDone nodes
  | .returned err => s.AllDone nodes ∧ Justified nodes attempts err

def Returned : Prop := ∃ err, s.caller = .returned err

/-- The counters and the channel agree with the goroutines. -/
structure Ok : Prop where
  panicked : s.panicked = false
  spawned : s.goroutines.length ≤ nodes.length
  agrees : ∀ (i : Nat) (phase : SenderPhase), s.goroutines[i]? = some phase →
    phase.Agrees (attempts i)
  waits : s.wg = s.goroutines.countP SenderPhase.running
  sent : ∀ i, s.sentFrom i =
    if s.hasSent attempts i then requestTo request nodes i else []
  room : s.errorHandle.length ≤ s.goroutines.countP SenderPhase.finished
  produced : ∀ err ∈ s.errorHandle, ∃ i < nodes.length, (attempts i).err = some err
  reported : ¬ s.Returned → ∀ (i : Nat) (phase : SenderPhase) (err : CallErr),
    s.goroutines[i]? = some phase → phase.finished = true →
    (attempts i).err = some err → err ∈ s.errorHandle
  caller : s.CallerOk nodes attempts s.caller

section Invariant

variable {request nodes attempts s} {i : Nat} {a b : SenderPhase}

theorem move_goroutines : (s.move i b).goroutines = s.goroutines.set i b := rfl

theorem getElem?_move {j : Nat} {phase : SenderPhase} (hi : s.goroutines[i]? = some a)
    (hj : (s.move i b).goroutines[j]? = some phase) :
    j = i ∧ phase = b ∨ j ≠ i ∧ s.goroutines[j]? = some phase := by
  obtain ⟨hlt, _⟩ := List.getElem?_eq_some_iff.mp hi
  by_cases heq : i = j
  · subst heq
    rw [move, List.getElem?_set_self hlt] at hj
    exact Or.inl ⟨rfl, (Option.some.inj hj).symm⟩
  · rw [move, List.getElem?_set_ne heq] at hj
    exact Or.inr ⟨fun h => heq h.symm, hj⟩

theorem hasSent_move (b : SenderPhase) (attempts : Nat → Attempt Unit)
    (hi : s.goroutines[i]? = some a)
    (hab : b.hasSent (attempts i) = a.hasSent (attempts i)) (j : Nat) :
    (s.move i b).hasSent attempts j = s.hasSent attempts j := by
  obtain ⟨hlt, _⟩ := List.getElem?_eq_some_iff.mp hi
  by_cases heq : i = j
  · subst heq
    rw [hasSent, hasSent, move, List.getElem?_set_self hlt, hi]
    exact hab
  · rw [hasSent, hasSent, move, List.getElem?_set_ne heq]

theorem AllDone.eq_done (h : s.AllDone nodes) (hi : s.goroutines[i]? = some a) : a = .done :=
  h.2 a (List.mem_of_getElem? hi)

/-- As long as a goroutine is under way, the caller starts goroutines or waits. -/
theorem Ok.spawning (hok : s.Ok request nodes attempts) (hi : s.goroutines[i]? = some a)
    (ha : a ≠ .done) : s.caller = .spawning ∧ nodes ≠ [] ∧ s.closed = false := by
  have hcaller := hok.caller
  cases hc : s.caller with
  | starting =>
      rw [hc] at hcaller
      rw [hcaller.1] at hi
      cases hi
  | spawning =>
      rw [hc] at hcaller
      exact ⟨rfl, hcaller⟩
  | closing =>
      rw [hc] at hcaller
      exact absurd (hcaller.2.2.eq_done hi) ha
  | receiving =>
      rw [hc] at hcaller
      exact absurd (hcaller.2.eq_done hi) ha
  | returned err =>
      rw [hc] at hcaller
      exact absurd (hcaller.1.eq_done hi) ha

theorem Ok.not_closed (hok : s.Ok request nodes attempts) (hi : s.goroutines[i]? = some a)
    (ha : a ≠ .done) : s.closed ≠ true := by
  obtain ⟨_, _, hopen⟩ := hok.spawning hi ha
  rw [hopen]
  exact Bool.false_ne_true

theorem Ok.wg_ne_zero (hok : s.Ok request nodes attempts) (hi : s.goroutines[i]? = some a)
    (ha : a.running = true) : s.wg ≠ 0 := by
  intro hw
  exact List.countP_eq_zero.mp (hok.waits.symm.trans hw) a (List.mem_of_getElem? hi) ha

/-- A goroutine that has not finished finds room on the channel. -/
theorem Ok.has_room (hok : s.Ok request nodes attempts) (hi : s.goroutines[i]? = some a)
    (ha : a.finished = false) : s.errorHandle.length < nodes.length := by
  have hcount : s.goroutines.countP SenderPhase.finished < s.goroutines.length := by
    apply Nat.lt_of_le_of_ne List.countP_le_length
    intro hall
    have hfinished := List.countP_eq_length.mp hall a (List.mem_of_getElem? hi)
    rw [ha] at hfinished
    cases hfinished
  have hroom := hok.room
  have hspawned := hok.spawned
  omega

/-- What a goroutine may do: it moves on, and all that changes besides is the counter, a
request that it sends and an error that it reports. -/
theorem Ok.moved {t : FanOut} (b : SenderPhase) (hok : s.Ok request nodes attempts)
    (hi : s.goroutines[i]? = some a) (ha : a ≠ .done) (hb : b.Agrees (attempts i))
    (hgoroutines : t.goroutines = (s.move i b).goroutines) (hcaller : t.caller = s.caller)
    (hclosed : t.closed = s.closed) (hpanicked : t.panicked = s.panicked)
    (hwaits : t.wg + a.running.toNat = s.wg + b.running.toNat)
    (hsent : ∀ j, t.sentFrom j =
      if t.hasSent attempts j then requestTo request nodes j else [])
    (hroom : t.errorHandle.length + a.finished.toNat ≤
      s.errorHandle.length + b.finished.toNat)
    (hkept : ∀ err ∈ s.errorHandle, err ∈ t.errorHandle)
    (hproduced : ∀ err ∈ t.errorHandle, err ∈ s.errorHandle ∨
      (attempts i).err = some err)
    (hreported : ∀ err, b.finished = true → (attempts i).err = some err →
      err ∈ t.errorHandle) : t.Ok request nodes attempts := by
  obtain ⟨hspawning, hne, hopen⟩ := hok.spawning hi ha
  obtain ⟨hlt, _⟩ := List.getElem?_eq_some_iff.mp hi
  have hspawned := hok.spawned
  refine ⟨hpanicked.trans hok.panicked, ?_, ?_, ?_, hsent, ?_, ?_, ?_, ?_⟩
  · rw [hgoroutines, move, List.length_set]
    exact hspawned
  · intro j phase hj
    rw [hgoroutines] at hj
    cases getElem?_move hi hj with
    | inl hmoved =>
        obtain ⟨rfl, rfl⟩ := hmoved
        exact hb
    | inr hother => exact hok.agrees j phase hother.2
  · have hcount := Phases.countP_move SenderPhase.running b hi
    have hold := hok.waits
    rw [hgoroutines, move_goroutines]
    omega
  · have hcount := Phases.countP_move SenderPhase.finished b hi
    have hold := hok.room
    rw [hgoroutines, move_goroutines]
    omega
  · intro err herr
    cases hproduced err herr with
    | inl hold => exact hok.produced err hold
    | inr hnew => exact ⟨i, by omega, hnew⟩
  · intro hret j phase err hj hf herr
    rw [hgoroutines] at hj
    cases getElem?_move hi hj with
    | inl hmoved =>
        obtain ⟨rfl, rfl⟩ := hmoved
        exact hreported err hf herr
    | inr hother =>
        apply hkept
        refine hok.reported ?_ j phase err hother.2 hf herr
        rwa [Returned, ← hcaller]
  · rw [hcaller, hspawning]
    exact ⟨hne, hclosed.trans hopen⟩

theorem Ok.called (hok : s.Ok request nodes attempts) (hs : ¬ s.Returned)
    (c : CallerPhase) (closed : Bool)
    (hc : CallerOk nodes attempts { s with caller := c, closed } c) :
    Ok request nodes attempts { s with caller := c, closed } :=
  ⟨hok.panicked, hok.spawned, hok.agrees, hok.waits, hok.sent, hok.room, hok.produced,
    fun _ => hok.reported hs, hc⟩

theorem not_returned {c : CallerPhase} (hc : s.caller = c) (h : ∀ err, c ≠ .returned err) :
    ¬ s.Returned := by
  intro hr
  obtain ⟨err, herr⟩ := hr
  exact h err (hc.symm.trans herr)

/-- A goroutine that has just started is in no set that it has yet to get into. -/
theorem getD_spawned {f : SenderPhase → Bool} (hf : f .started = false) (j : Nat) :
    ((s.goroutines ++ [.started])[j]?.map f).getD false =
      (s.goroutines[j]?.map f).getD false := by
  rw [List.getElem?_append]
  split
  · rfl
  · rename_i hge
    rw [List.getElem?_eq_none (Nat.le_of_not_lt hge)]
    cases hj : [SenderPhase.started][j - s.goroutines.length]? with
    | none => rfl
    | some phase =>
        rw [List.mem_singleton.mp (List.mem_of_getElem? hj)]
        exact hf

/-- The loop starts one more goroutine. -/
theorem Ok.spawn (hok : s.Ok request nodes attempts) (hc : s.caller = .spawning)
    (hn : s.goroutines.length < nodes.length) :
    Ok request nodes attempts
      { s with goroutines := s.goroutines ++ [.started], wg := s.wg + 1 } := by
  have hnew {j : Nat} {phase : SenderPhase}
      (hj : (s.goroutines ++ [.started])[j]? = some phase) :
      s.goroutines[j]? = some phase ∨ phase = .started := by
    rw [List.getElem?_append] at hj
    split at hj
    · exact Or.inl hj
    · exact Or.inr (List.mem_singleton.mp (List.mem_of_getElem? hj))
  have hcaller := hok.caller
  rw [hc] at hcaller
  refine ⟨hok.panicked, ?_, ?_, ?_, ?_, ?_, hok.produced, ?_, ?_⟩
  · rw [List.length_append]
    exact hn
  · intro j phase hj
    cases hnew hj with
    | inl hold => exact hok.agrees j phase hold
    | inr hstarted =>
        rw [hstarted]
        exact trivial
  · rw [List.countP_append, ← hok.waits]
    rfl
  · intro j
    rw [hasSent, getD_spawned rfl]
    exact hok.sent j
  · rw [List.countP_append]
    exact Nat.le_add_right_of_le hok.room
  · intro _ j phase err hj hf herr
    cases hnew hj with
    | inl hold =>
        exact hok.reported (not_returned hc (fun _ => nofun)) j phase err hold hf herr
    | inr hstarted =>
        rw [hstarted] at hf
        cases hf
  · rw [hc]
    exact hcaller

/-- The counter of the wait group is zero when all goroutines have ended. -/
theorem Ok.allDone (hok : s.Ok request nodes attempts)
    (hn : s.goroutines.length = nodes.length) (hw : s.wg = 0) : s.AllDone nodes := by
  refine ⟨hn, fun phase hp => ?_⟩
  have hzero := List.countP_eq_zero.mp (hok.waits.symm.trans hw) phase hp
  cases phase with
  | done => rfl
  | started | connected | requested | failing err | ending => exact absurd rfl hzero

/-- What the caller takes from the channel is what the nodes produced. -/
theorem Ok.justified (hok : s.Ok request nodes attempts) (hs : ¬ s.Returned)
    (hne : nodes ≠ []) (hd : s.AllDone nodes) :
    Justified nodes attempts s.errorHandle.head? := by
  cases herrs : s.errorHandle with
  | nil =>
      refine ⟨hne, fun i hi => ?_⟩
      cases herr : (attempts i).err with
      | none => rfl
      | some err =>
          have hlt : i < s.goroutines.length := by rw [hd.1]; exact hi
          have hdone := hd.2 _ (List.getElem_mem hlt)
          have hmem := hok.reported hs i _ err (List.getElem?_eq_getElem hlt)
            (by rw [hdone]; rfl) herr
          rw [herrs] at hmem
          cases hmem
  | cons err errs =>
      exact Or.inr (hok.produced err (by rw [herrs]; exact List.mem_cons_self))

theorem Ok.receive (hok : s.Ok request nodes attempts) (hc : s.caller = .receiving) :
    Ok request nodes attempts
      { s with caller := .returned s.errorHandle.head?, errorHandle := s.errorHandle.tail } := by
  have hcaller := hok.caller
  rw [hc] at hcaller
  have hlen := hok.room
  refine ⟨hok.panicked, hok.spawned, hok.agrees, hok.waits, hok.sent, ?_, ?_, ?_, ?_⟩
  · rw [List.length_tail]
    exact Nat.le_trans (Nat.sub_le _ _) hok.room
  · exact fun err herr => hok.produced err (List.mem_of_mem_tail herr)
  · exact fun hret => absurd ⟨_, rfl⟩ hret
  · exact ⟨hcaller.2, hok.justified (not_returned hc (fun _ => nofun)) hcaller.1 hcaller.2⟩

theorem sentFrom_append (t : FanOut) (j : Nat) (sent : SentRequest)
    (ht : t.requests = s.requests ++ [sent]) :
    t.sentFrom j = s.sentFrom j ++ if sent.goroutine = j then [sent] else [] := by
  rw [sentFrom, sentFrom, ht, List.filter_append]
  by_cases heq : sent.goroutine = j
  · simp [heq]
  · simp [heq]

/-- A goroutine sends its request. -/
theorem Ok.sends {node : GoString} (hok : s.Ok request nodes attempts)
    (hi : s.goroutines[i]? = some .connected) (hn : nodes[i]? = some node) :
    Ok request nodes attempts
      { s.move i .requested with requests := s.requests ++ [⟨i, node, request⟩] } := by
  obtain ⟨hlt, _⟩ := List.getElem?_eq_some_iff.mp hi
  have hconnects : (attempts i).connects = true := hok.agrees i _ hi
  refine hok.moved .requested hi nofun hconnects rfl rfl rfl rfl rfl ?_ (Nat.le_refl _)
    (fun err herr => herr) (fun err herr => Or.inl herr) (fun err hf => nomatch hf)
  intro j
  rw [sentFrom_append _ j ⟨i, node, request⟩ rfl, hok.sent j]
  by_cases heq : i = j
  · subst heq
    have hbefore : s.hasSent attempts i = false := by
      rw [hasSent, hi]
      rfl
    have hafter : hasSent attempts
        { s.move i .requested with requests := s.requests ++ [⟨i, node, request⟩] } i =
          true := by
      rw [hasSent, move, List.getElem?_set_self hlt]
      rfl
    rw [hbefore, hafter, requestTo, hn, if_pos rfl]
    rfl
  · have hsame : hasSent attempts
        { s.move i .requested with requests := s.requests ++ [⟨i, node, request⟩] } j =
          s.hasSent attempts j := by
      rw [hasSent, hasSent, move, List.getElem?_set_ne heq]
    rw [hsame, if_neg heq, List.append_nil]

/-- A goroutine moves on and neither sends nor reports. -/
theorem Ok.quiet (hok : s.Ok request nodes attempts) (hi : s.goroutines[i]? = some a)
    (ha : a.finished = false) (hb : b.Agrees (attempts i)) (hrun : b ≠ .done)
    (hsent : b.hasSent (attempts i) = a.hasSent (attempts i))
    (hquiet : b.finished = true → (attempts i).err = none) :
    (s.move i b).Ok request nodes attempts := by
  have hrunning (phase : SenderPhase) (h : phase ≠ .done) : phase.running = true := by
    cases phase with
    | done => exact absurd rfl h
    | started | connected | requested | failing err | ending => rfl
  have hdone : a ≠ .done := by
    rintro rfl
    cases ha
  refine hok.moved b hi hdone hb rfl rfl rfl rfl ?_ ?_ ?_ (fun err herr => herr)
    (fun err herr => Or.inl herr) ?_
  · rw [hrunning a hdone, hrunning b hrun]
    rfl
  · intro j
    rw [hasSent_move b attempts hi hsent]
    exact hok.sent j
  · rw [ha]
    exact Nat.le_add_right _ _
  · intro err hf herr
    rw [hquiet hf] at herr
    cases herr

theorem Ok.step {t : FanOut} {e : FanOutEvent} (hok : s.Ok request nodes attempts)
    (h : s.Step request nodes attempts e t) : t.Ok request nodes attempts := by
  have hcaller := hok.caller
  cases h with
  | noNodes hc hn =>
      rw [hc] at hcaller
      refine hok.called (not_returned hc (fun _ => nofun)) _ s.closed ⟨⟨?_, ?_⟩, ?_⟩
      · rw [hcaller.1, hn]
        rfl
      · rw [hcaller.1]
        exact fun _ => nofun
      · exact Or.inl ⟨hn, rfl⟩
  | start hc hn =>
      rw [hc] at hcaller
      exact hok.called (not_returned hc (fun _ => nofun)) _ s.closed ⟨hn, hcaller.2.1⟩
  | spawn hc hn => exact hok.spawn hc hn
  | wait hc hn hw =>
      rw [hc] at hcaller
      exact hok.called (not_returned hc (fun _ => nofun)) _ s.closed
        ⟨hcaller.1, hcaller.2, hok.allDone hn hw⟩
  | close hc =>
      rw [hc] at hcaller
      exact hok.called (not_returned hc (fun _ => nofun)) _ true ⟨hcaller.1, hcaller.2.2⟩
  | receive hc => exact hok.receive hc
  | @getClient i hi =>
      refine hok.quiet hi rfl agrees_onClient ?_ hasSent_onClient ?_
      · cases attempts i <;> exact nofun
      · cases attempts i <;> exact nofun
  | request hi hn => exact hok.sends hi hn
  | @answer i hi =>
      have hconnects : (attempts i).connects = true := hok.agrees i _ hi
      refine hok.quiet hi rfl agrees_onAnswer ?_ (hasSent_onAnswer hconnects)
        (err_of_finished_onAnswer hconnects)
      cases attempts i <;> exact nofun
  | @report i err hi hc hr =>
      have herr : (attempts i).err = some err := hok.agrees i _ hi
      refine hok.moved .ending hi nofun trivial rfl rfl rfl rfl rfl ?_ ?_ ?_ ?_ ?_
      · intro j
        have hsame := hasSent_move .ending attempts hi rfl j
        exact (hok.sent j).trans (by rw [← hsame]; rfl)
      · rw [List.length_append]
        exact Nat.le_refl _
      · exact fun err herr => List.mem_append_left _ herr
      · intro err' herr'
        cases List.mem_append.mp herr' with
        | inl hold => exact Or.inl hold
        | inr hnew =>
            rw [List.mem_singleton.mp hnew]
            exact Or.inr herr
      · intro err' _ herr'
        obtain rfl := Option.some.inj (herr.symm.trans herr')
        exact List.mem_append_right _ List.mem_cons_self
  | reportClosed hi hc => exact absurd hc (hok.not_closed hi nofun)
  | @done i hi hw =>
      refine hok.moved .done hi nofun trivial rfl rfl rfl rfl ?_ ?_ (Nat.le_refl _)
        (fun err herr => herr) (fun err herr => Or.inl herr) ?_
      · exact Nat.sub_add_cancel (Nat.pos_of_ne_zero hw)
      · intro j
        have hsame := hasSent_move .done attempts hi rfl j
        exact (hok.sent j).trans (by rw [← hsame]; rfl)
      · intro err _ herr
        obtain ⟨hspawning, _⟩ := hok.spawning hi nofun
        exact hok.reported (not_returned hspawning (fun _ => nofun)) i _ err hi rfl herr
  | doneNegative hi hw => exact absurd hw (hok.wg_ne_zero hi rfl)

end Invariant

end FanOut

end KvLab
