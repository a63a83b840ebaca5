import DistributedLabs.Library.GoMap
import DistributedLabs.Library.History
import Mathlib.Logic.Function.Basic

/-!
The simulated network (labrpc.go). One event is one critical section, one channel operation
or one use of the network by the program; the scheduler and the random choices are free.
`Call`, `processReq` and the goroutine that it starts for `dispatch` are the phases of one
call. Arguments and replies are values of a type `β`, of which only the encoded length
matters to the network, and a pointer to a server is its position on the heap.

A message that sleeps is one whose next event comes late. A handler belongs to the program:
it may return any reply, and it may never return.
-/

namespace LabRpc

/-- A method as reflection describes it; `replyIsPtr` is `In(2).Kind() == reflect.Ptr`. -/
structure Method where
  name : List Char
  pkgPath : List Char
  numIn : Nat
  replyIsPtr : Bool
  numOut : Nat
  deriving DecidableEq, Repr

/-- A service and the names of its handlers. -/
structure Service where
  name : List Char
  methods : List (List Char)
  deriving DecidableEq, Repr

/-- The method looks like a handler. -/
def Method.isHandler (m : Method) : Bool :=
  m.pkgPath.isEmpty && m.numIn == 3 && m.replyIsPtr && m.numOut == 0

def makeService (name : List Char) (typ : List Method) : Service :=
  ⟨name, (typ.filter Method.isHandler).map Method.name⟩

structure Server where
  services : GoMap (List Char) Service
  count : Int

def makeServer : Server := ⟨∅, 0⟩

def Server.addService (rs : Server) (svc : Service) : Server :=
  { rs with services := rs.services.insert svc.name svc }

/-- `svcMeth[:dot]` and `svcMeth[dot+1:]` at the last dot; without a dot they panic. -/
def splitMethod (svcMeth : List Char) : Option (List Char × List Char) :=
  match svcMeth.reverse.dropWhile (· ≠ '.') with
  | [] => none
  | _ :: service => some (service.reverse, (svcMeth.reverse.takeWhile (· ≠ '.')).reverse)

/-- The two lookups of `dispatch` succeed; otherwise it ends the program. -/
def Server.handles (rs : Server) (svcMeth : List Char) : Bool :=
  match splitMethod svcMeth with
  | none => false
  | some (serviceName, methodName) =>
      match rs.services.lookup serviceName with
      | none => false
      | some service => decide (methodName ∈ service.methods)

/-- The fields of `Network`; `listening` says whether the goroutine of `MakeNetwork`
still runs. A missing entry of a map reads as `false` or nil. -/
structure Network (ε ν : Type) where
  reliable : Bool
  longDelays : Bool
  longReordering : Bool
  ends : ε → Bool
  enabled : ε → Bool
  servers : ν → Option Nat
  connections : ε → Option ν
  done : Bool
  listening : Bool
  count : Int32
  bytes : Int64

def makeNetwork {ε ν : Type} : Network ε ν where
  reliable := true
  longDelays := false
  longReordering := false
  ends := fun _ => false
  enabled := fun _ => false
  servers := fun _ => none
  connections := fun _ => none
  done := false
  listening := true
  count := 0
  bytes := 0

structure ReplyMsg (β : Type) where
  ok : Bool
  reply : Option β
  deriving DecidableEq, Repr

/-- `replyMsg{false, nil}`. -/
def noReply {β : Type} : ReplyMsg β := ⟨false, none⟩

/-- What `readEndnameInfo` found for a request that can be routed. -/
structure Info (ν : Type) where
  servername : ν
  server : Nat
  reliable : Bool
  longreordering : Bool
  deriving DecidableEq, Repr

/-- Where `ClientEnd.Call` stands: in its `select`, in the receive from `replyCh`, or
returned. -/
inductive Caller (β : Type)
  | sending
  | waiting
  | returned (rep : ReplyMsg β)
  deriving DecidableEq, Repr

/-- Where `processReq` stands. `serving` is its loop, which it leaves with the reply or
because the server is dead; after `weighing` the length of the reply is counted. -/
inductive Process (β : Type)
  | idle
  | started
  | routed
  | serving
  | answered (reply : β)
  | gaveUp
  | weighing (reply : β)
  | replying (msg : ReplyMsg β)
  | finished
  deriving DecidableEq, Repr

/-- Where the goroutine around `server.dispatch` stands: before the critical section of
`dispatch`, in the handler, in the send on `ech`, or at its end. -/
inductive Dispatch (β : Type)
  | idle
  | dispatching
  | handling
  | returned (reply : β)
  | done (reply : β)
  deriving DecidableEq, Repr

/-- One call with the local variables of its goroutines; `draining` says that the goroutine
runs that receives from `ech` for a server that is dead. -/
structure Call (ε ν β : Type) where
  endname : ε
  svcMeth : List Char
  args : β
  info : Option (Info ν)
  caller : Caller β
  process : Process β
  dispatch : Dispatch β
  draining : Bool
  deriving DecidableEq, Repr

/-- The random choice about a reply. -/
inductive Fate
  | send
  | drop
  | delay
  deriving DecidableEq, Repr

/-- The steps of the goroutines of one call. -/
inductive Move (β : Type)
  | accept
  | abort
  | route
  | dropRequest
  | dispatch
  | lookup
  | handlerReturns (reply : β)
  | takeReply
  | poll
  | drain
  | conclude (fate : Fate)
  | weigh
  | deliver
  deriving DecidableEq, Repr

structure State (ε ν β : Type) where
  net : Network ε ν
  heap : List Server
  calls : List (Call ε ν β)
  exited : Bool

inductive Event (ε ν β : Type)
  | makeEnd (endname : ε)
  | makeServer
  | addService (server : Nat) (svc : Service)
  | addServer (servername : ν) (server : Nat)
  | deleteServer (servername : ν)
  | connect (endname : ε) (servername : ν)
  | enable (endname : ε) (enabled : Bool)
  | setReliable (yes : Bool)
  | setLongReordering (yes : Bool)
  | setLongDelays (yes : Bool)
  | cleanup
  | stopListening
  | call (endname : ε) (svcMeth : List Char) (args : β)
  | move (k : Nat) (m : Move β)
  deriving DecidableEq, Repr

section Model

variable {ε ν β : Type}

/-- `readEndnameInfo`, for a request that can be routed. -/
def Network.readEndnameInfo (rn : Network ε ν) (endname : ε) : Option (Info ν) :=
  if rn.enabled endname then
    match rn.connections endname with
    | none => none
    | some servername =>
        match rn.servers servername with
        | none => none
        | some server => some ⟨servername, server, rn.reliable, rn.longReordering⟩
  else none

def Network.isServerDead (rn : Network ε ν) (endname : ε) (i : Info ν) : Bool :=
  !rn.enabled endname || rn.servers i.servername != some i.server

/-- `Call` before its first `select`. -/
def Call.make (endname : ε) (svcMeth : List Char) (args : β) : Call ε ν β where
  endname := endname
  svcMeth := svcMeth
  args := args
  info := none
  caller := .sending
  process := .idle
  dispatch := .idle
  draining := false

/-- `processReq` after its loop, with the reply if the handler has returned. -/
def Call.conclude (c : Call ε ν β) (rn : Network ε ν) (i : Info ν) (reply : Option β)
    (fate : Fate) : Option (Call ε ν β) :=
  match rn.isServerDead c.endname i, reply, fate with
  | false, some _, .drop =>
      if i.reliable then none else some { c with process := .replying noReply }
  | false, some reply, .delay =>
      if i.longreordering then some { c with process := .weighing reply } else none
  | false, some reply, .send => some { c with process := .weighing reply }
  | _, _, _ => some { c with process := .replying noReply }

/-- One step of a call's goroutines, as far as its own variables go. -/
def Call.move (c : Call ε ν β) (rn : Network ε ν) : Move β → Option (Call ε ν β)
  | .accept =>
      match c.caller, rn.listening with
      | .sending, true => some { c with caller := .waiting, process := .started }
      | _, _ => none
  | .abort =>
      match c.caller, rn.done with
      | .sending, true => some { c with caller := .returned noReply }
      | _, _ => none
  | .route =>
      match c.process, rn.readEndnameInfo c.endname with
      | .started, some i => some { c with info := some i, process := .routed }
      | .started, none => some { c with process := .replying noReply }
      | _, _ => none
  | .dropRequest =>
      match c.process, c.info with
      | .routed, some i =>
          if i.reliable then none else some { c with process := .replying noReply }
      | _, _ => none
  | .dispatch =>
      match c.process with
      | .routed => some { c with process := .serving, dispatch := .dispatching }
      | _ => none
  | .lookup =>
      match c.dispatch with
      | .dispatching => some { c with dispatch := .handling }
      | _ => none
  | .handlerReturns reply =>
      match c.dispatch with
      | .handling => some { c with dispatch := .returned reply }
      | _ => none
  | .takeReply =>
      match c.process, c.dispatch with
      | .serving, .returned reply =>
          some { c with process := .answered reply, dispatch := .done reply }
      | _, _ => none
  | .poll =>
      match c.process, c.info with
      | .serving, some i =>
          if rn.isServerDead c.endname i then
            some { c with process := .gaveUp, draining := true }
          else some c
      | _, _ => none
  | .drain =>
      match c.draining, c.dispatch with
      | true, .returned reply => some { c with draining := false, dispatch := .done reply }
      | _, _ => none
  | .conclude fate =>
      match c.process, c.info with
      | .answered reply, some i => c.conclude rn i (some reply) fate
      | .gaveUp, some i => c.conclude rn i none fate
      | _, _ => none
  | .weigh =>
      match c.process with
      | .weighing reply => some { c with process := .replying ⟨true, some reply⟩ }
      | _ => none
  | .deliver =>
      match c.process, c.caller with
      | .replying msg, .waiting =>
          some { c with caller := .returned msg, process := .finished }
      | _, _ => none

namespace State

def init : State ε ν β := ⟨makeNetwork, [], [], false⟩

/-- `log.Fatalf`, or a panic outside of the handlers. -/
def exit (s : State ε ν β) : State ε ν β := { s with exited := true }

/-- `rs.count += 1` for the server at `p`. -/
def countDispatch (s : State ε ν β) (p : Nat) : State ε ν β :=
  { s with heap := s.heap.modify p fun rs => { rs with count := rs.count + 1 } }

/-- What a step of the call `c` does outside of the call's own variables. The critical
section of `dispatch` ends the program if the method is unknown. -/
def charge (size : β → Nat) (s : State ε ν β) (c : Call ε ν β) (m : Move β) :
    State ε ν β :=
  match m, c.process, c.info with
  | .accept, _, _ =>
      { s with net := { s.net with
          count := s.net.count + 1
          bytes := s.net.bytes + Int64.ofNat (size c.args) } }
  | .weigh, .weighing reply, _ =>
      { s with net := { s.net with bytes := s.net.bytes + Int64.ofNat (size reply) } }
  | .lookup, _, some i =>
      let s' := s.countDispatch i.server
      match s.heap[i.server]? with
      | none => s'.exit
      | some rs => if rs.handles c.svcMeth then s' else s'.exit
  | _, _, _ => s

def stepMove (size : β → Nat) (s : State ε ν β) (k : Nat) (m : Move β) :
    Option (State ε ν β) :=
  match s.calls[k]? with
  | none => none
  | some c =>
      match c.move s.net m with
      | none => none
      | some c' => some { s.charge size c m with calls := s.calls.set k c' }

variable [DecidableEq ε] [DecidableEq ν]

def stepSetup (s : State ε ν β) : Event ε ν β → Option (State ε ν β)
  | .makeEnd endname =>
      if s.net.ends endname then some s.exit
      else
        some { s with net := { s.net with
          ends := Function.update s.net.ends endname true
          enabled := Function.update s.net.enabled endname false
          connections := Function.update s.net.connections endname none } }
  | .makeServer => some { s with heap := s.heap ++ [LabRpc.makeServer] }
  | .addService server svc =>
      some { s with heap := s.heap.modify server (Server.addService · svc) }
  | .addServer servername server =>
      if server < s.heap.length then
        some { s with net := { s.net with
          servers := Function.update s.net.servers servername (some server) } }
      else none
  | .deleteServer servername =>
      some { s with net := { s.net with
        servers := Function.update s.net.servers servername none } }
  | .connect endname servername =>
      some { s with net := { s.net with
        connections := Function.update s.net.connections endname (some servername) } }
  | .enable endname enabled =>
      some { s with net := { s.net with
        enabled := Function.update s.net.enabled endname enabled } }
  | .setReliable yes => some { s with net := { s.net with reliable := yes } }
  | .setLongReordering yes => some { s with net := { s.net with longReordering := yes } }
  | .setLongDelays yes => some { s with net := { s.net with longDelays := yes } }
  | .cleanup =>
      if s.net.done then some s.exit else some { s with net := { s.net with done := true } }
  | .stopListening =>
      if s.net.done && s.net.listening then
        some { s with net := { s.net with listening := false } }
      else none
  | .call _ _ _ | .move _ _ => none

def step (size : β → Nat) (s : State ε ν β) (e : Event ε ν β) : Option (State ε ν β) :=
  if s.exited then none
  else
    match e with
    | .call endname svcMeth args =>
        if s.net.ends endname then
          some { s with calls := s.calls ++ [Call.make endname svcMeth args] }
        else none
    | .move k m => s.stepMove size k m
    | e => s.stepSetup e

end State

/-- The network as a machine; `size` gives the encoded length of a message. -/
def network (ε ν : Type) {β : Type} [DecidableEq ε] [DecidableEq ν] (size : β → Nat) :
    Machine (State ε ν β) (Event ε ν β) where
  init := State.init
  step := State.step size

end Model

/-- A server with one service is set up, and a call to it starts. -/
def oneCall : List (Event Nat Nat Nat) :=
  [.makeEnd 0, .makeServer, .addService 0 ⟨['R'], [['V']]⟩, .addServer 1 0, .connect 0 1,
    .enable 0 true, .call 0 ['R', '.', 'V'] 5, .move 0 .accept, .move 0 .route,
    .move 0 .dispatch, .move 0 .lookup]

end LabRpc
