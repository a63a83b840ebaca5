import DistributedLabs.Rpc.Calls

/-!
How the harness restarts a server (config.go, persister.go) over the simulated network. The
calls `connect`, `disconnect`, `crash1` and `start1` of the test are lists of operations;
the network, the instances of Raft and their handlers go on between them. An operation
stands for one change under one lock. Only `makeEnds` is a whole loop, which makes and
connects the ends of the server; nobody has their names before `make` hands them to an
instance. A killed instance keeps running: it may still save its state, handle a request
and call others.

A pointer to a persister or to a server is its position on a heap. What an instance read at
its start and what `crash1` copied from it are recorded.
-/

namespace RaftLab

open LabRpc (Service)

structure Persister where
  raftstate : List UInt8
  snapshot : List UInt8
  deriving DecidableEq, Repr

def makePersister : Persister := ⟨[], []⟩

/-- An instance of Raft with the names of its ends, its persister and, once `start1` has
added it, its server on the network. -/
structure Instance (n : Nat) (ε : Type) where
  name : Fin n
  ends : Fin n → ε
  persister : Nat
  server : Option Nat
  killed : Bool
  initial : Persister
  final : Option Persister

/-- The operations of the test's goroutine. `copySaved` and `saveAnew` are the two changes
of `saved[i]` in `crash1`, `renewSaved` the one in `start1`. -/
inductive Op (n : Nat) (ε : Type)
  | setConnected (i : Fin n) (yes : Bool)
  | enableOut (i j : Fin n) (enabled : Bool)
  | enableIn (i j : Fin n) (enabled : Bool)
  | deleteServer (i : Fin n)
  | copySaved (i : Fin n)
  | kill (i : Fin n)
  | saveAnew (i : Fin n)
  | makeEnds (i : Fin n) (names : Fin n → ε)
  | renewSaved (i : Fin n)
  | make (i : Fin n)
  | addServer (i : Fin n) (svc : Service)

section Calls

variable {n : Nat} {ε : Type}

def connect (i : Fin n) : List (Op n ε) :=
  .setConnected i true :: ((List.finRange n).map (.enableOut i · true) ++
    (List.finRange n).map (.enableIn i · true))

def disconnect (i : Fin n) : List (Op n ε) :=
  .setConnected i false :: ((List.finRange n).map (.enableOut i · false) ++
    (List.finRange n).map (.enableIn i · false))

def crash1 (i : Fin n) : List (Op n ε) :=
  disconnect i ++ [.deleteServer i, .copySaved i, .kill i, .saveAnew i]

def start1 (i : Fin n) (names : Fin n → ε) (svc : Service) : List (Op n ε) :=
  crash1 i ++ [.makeEnds i names, .renewSaved i, .make i, .addServer i svc]

end Calls

inductive TestOp (n : Nat) (ε : Type)
  | connect (i : Fin n)
  | disconnect (i : Fin n)
  | crash1 (i : Fin n)
  | start1 (i : Fin n) (names : Fin n → ε) (svc : Service)

def TestOp.ops {n : Nat} {ε : Type} : TestOp n ε → List (Op n ε)
  | .connect i => RaftLab.connect i
  | .disconnect i => RaftLab.disconnect i
  | .crash1 i => RaftLab.crash1 i
  | .start1 i names svc => RaftLab.start1 i names svc

structure Config (n : Nat) (ε β : Type) where
  net : LabRpc.State ε (Fin n) β
  persisters : List Persister
  saved : Fin n → Option Nat
  endnames : Fin n → Option (Fin n → ε)
  connected : Fin n → Bool
  rafts : Fin n → Option Nat
  instances : List (Instance n ε)
  task : List (Op n ε)

/-- The test begins one of its calls, or takes the next operation of the one it is in. -/
inductive ConfigEvent (n : Nat) (ε β : Type)
  | net (e : LabRpc.Event ε (Fin n) β)
  | persist (a : Nat) (state : List UInt8)
  | perform (p : TestOp n ε)
  | run

/-- The events of the network that do not belong to the test's operations. -/
def shared {n : Nat} {ε β : Type} : LabRpc.Event ε (Fin n) β → Bool
  | .call _ _ _ | .move _ _ | .setReliable _ | .setLongReordering _ | .setLongDelays _
  | .cleanup | .stopListening => true
  | .makeEnd _ | .makeServer | .addService _ _ | .addServer _ _ | .deleteServer _
  | .connect _ _ | .enable _ _ => false

namespace Config

variable {n : Nat} {ε β : Type} (s : Config n ε β)

def init : Config n ε β where
  net := LabRpc.State.init
  persisters := []
  saved := fun _ => none
  endnames := fun _ => none
  connected := fun _ => false
  rafts := fun _ => none
  instances := []
  task := []

/-- What a persister holds. -/
def content (q : Nat) : Persister := s.persisters[q]?.getD makePersister

/-- A new persister with this content for `saved[i]`. -/
def allocate (i : Fin n) (p : Persister) : Config n ε β :=
  { s with
    persisters := s.persisters ++ [p]
    saved := Function.update s.saved i (some s.persisters.length) }

variable [DecidableEq ε]

def setUp (net : LabRpc.State ε (Fin n) β) (e : LabRpc.Event ε (Fin n) β) :
    LabRpc.State ε (Fin n) β :=
  (net.stepSetup e).getD net

/-- `Enable` for one end of `connect` or `disconnect`; `connect` skips a server that is not
connected, and panics without names. -/
def enable (names : Option (Fin n → ε)) (other j : Fin n) (enabled : Bool) : Config n ε β :=
  match enabled, names with
  | true, some names =>
      if s.connected other then { s with net := setUp s.net (.enable (names j) true) } else s
  | true, none => if s.connected other then { s with net := s.net.exit } else s
  | false, some names => { s with net := setUp s.net (.enable (names j) false) }
  | false, none => s

/-- The loop of `start1` over `MakeEnd` and `Connect`; a name that is taken ends the
program. -/
def makeEnds (names : Fin n → ε) :
    List (Fin n) → LabRpc.State ε (Fin n) β → LabRpc.State ε (Fin n) β
  | [], net => net
  | j :: js, net =>
      if net.net.ends (names j) then net.exit
      else makeEnds names js
        (setUp (setUp net (.makeEnd (names j))) (.connect (names j) j))

def exec : Op n ε → Config n ε β
  | .setConnected i yes => { s with connected := Function.update s.connected i yes }
  | .enableOut i j enabled => s.enable (s.endnames i) j j enabled
  | .enableIn i j enabled => s.enable (s.endnames j) j i enabled
  | .deleteServer i => { s with net := setUp s.net (.deleteServer i) }
  | .copySaved i =>
      match s.saved i with
      | none => s
      | some q => { s.allocate i (s.content q) with
          instances := match s.rafts i with
            | none => s.instances
            | some a => s.instances.modify a fun x => { x with final := some (s.content q) } }
  | .kill i =>
      match s.rafts i with
      | none => s
      | some a => { s with
          rafts := Function.update s.rafts i none
          instances := s.instances.modify a fun x => { x with killed := true } }
  | .saveAnew i =>
      match s.saved i with
      | none => s
      | some q => s.allocate i (s.content q)
  | .makeEnds i names => { s with
      endnames := Function.update s.endnames i (some names)
      net := makeEnds names (List.finRange n) s.net }
  | .renewSaved i =>
      match s.saved i with
      | none => s.allocate i makePersister
      | some q => s.allocate i (s.content q)
  | .make i =>
      match s.saved i, s.endnames i with
      | some q, some names => { s with
          rafts := Function.update s.rafts i (some s.instances.length)
          instances := s.instances ++ [⟨i, names, q, none, false, s.content q, none⟩] }
      | _, _ => s
  | .addServer i svc =>
      match s.rafts i with
      | none => s
      | some a =>
          let server := s.net.heap.length
          { s with
            net := setUp (setUp (setUp s.net .makeServer) (.addService server svc))
              (.addServer i server)
            instances := s.instances.modify a fun x => { x with server := some server } }

def step (size : β → Nat) (e : ConfigEvent n ε β) : Option (Config n ε β) :=
  if s.net.exited then none
  else
    match e with
    | .net e =>
        if shared e then (s.net.step size e).map fun net => { s with net } else none
    | .persist a state =>
        s.instances[a]?.map fun x => { s with
          persisters := s.persisters.modify x.persister fun p => { p with raftstate := state } }
    | .perform p => if s.task.isEmpty then some { s with task := p.ops } else none
    | .run =>
        match s.task with
        | [] => none
        | op :: rest => some { s.exec op with task := rest }

end Config

def config (n : Nat) (ε : Type) {β : Type} [DecidableEq ε] (size : β → Nat) :
    Machine (Config n ε β) (ConfigEvent n ε β) where
  init := Config.init
  step := fun s e => s.step size e

end RaftLab
