/-
# The simulated network

`labrpc.go`: a call hands its request to the network and waits on a channel of its
own.  For every request a goroutine runs `ProcessReq`: it looks up the server of the
client end, may delay or drop the request, starts `dispatch` in another goroutine,
waits for it while it watches for the deletion of the server, and may drop or delay
the reply.  Time is not modelled: a delay is a moment at which anything else can
happen, and every random choice is an argument of the step.

* `Network`, `ProcessReq` cut into the sections between which other goroutines run
  (`CallState.step`), and the whole system (`labrpcSystem`);
* `CallMove`: everything that a section can do to a call;
* `call_at_most_once_and_honest`: what a caller can rely on, in every interleaving.
-/
import Mit6824.TransitionSystem

namespace Mit6824.Labrpc

/-! ## Requests and servers -/

/-- A request; its channel `replyCh` is that of the call it belongs to. -/
structure ReqMsg (E : Type) where
  endname : E
  svcMeth : String
  deriving DecidableEq

/-- The answer to a request: whether there is one, and its bytes. -/
structure ReplyMsg where
  ok : Bool
  reply : List UInt8
  deriving DecidableEq

/-- `replyMsg{false, nil}`. -/
def ReplyMsg.failure : ReplyMsg :=
  ⟨false, []⟩

/-- A server: the methods of its services by name, and its count of incoming requests. -/
structure Server where
  services : String → Option (List String)
  count : ℕ

/-- `MakeServer`: no services, no requests. -/
def makeServer : Server :=
  ⟨fun _ => none, 0⟩

/-- Enter the methods of a service under its name. -/
def Server.addService (rs : Server) (name : String) (methods : List String) : Server :=
  { rs with services := Function.update rs.services name (some methods) }

/-- The service and the method, at the last dot; without a dot the slice is out of range. -/
def splitMethod (svcMeth : String) : Option (String × String) :=
  let cs := svcMeth.toList.reverse
  match cs.dropWhile (· != '.') with
  | [] => none
  | _ :: service =>
      some (String.ofList service.reverse, String.ofList (cs.takeWhile (· != '.')).reverse)

/-- `dispatch` up to the call of the method; an unknown service or method ends the program. -/
def Server.dispatch (rs : Server) (svcMeth : String) : Option Server := do
  let (serviceName, methodName) ← splitMethod svcMeth
  let methods ← rs.services serviceName
  if methodName ∈ methods then some { rs with count := rs.count + 1 } else none

/-! ## The network -/

/-- The fields under `rn.mu`; `E` are the names of client ends and `N` those of servers.  A
server is known by its address. -/
structure Network (E N : Type) where
  reliable : Bool
  longReordering : Bool
  ends : E → Bool
  enabled : E → Bool
  servers : N → Option ℕ
  connections : E → Option N

namespace Network

variable {E N : Type}

/-- `MakeNetwork`: a reliable network without ends and servers. -/
def makeNetwork : Network E N :=
  ⟨true, false, fun _ => false, fun _ => false, fun _ => none, fun _ => none⟩

variable [DecidableEq E] [DecidableEq N]

/-- A second end of the same name ends the program. -/
def makeEnd (rn : Network E N) (endname : E) : Option (Network E N) :=
  if rn.ends endname then none
  else some { rn with
    ends := Function.update rn.ends endname true
    enabled := Function.update rn.enabled endname false
    connections := Function.update rn.connections endname none }

/-- Put a server under a name, in place of the one that was there. -/
def addServer (rn : Network E N) (servername : N) (rs : Option ℕ) : Network E N :=
  { rn with servers := Function.update rn.servers servername rs }

/-- Take away the server of a name. -/
def deleteServer (rn : Network E N) (servername : N) : Network E N :=
  { rn with servers := Function.update rn.servers servername none }

/-- Connect an end to a server.  It can be done once more, with another server. -/
def connect (rn : Network E N) (endname : E) (servername : Option N) : Network E N :=
  { rn with connections := Function.update rn.connections endname servername }

/-- Enable or disable an end. -/
def enable (rn : Network E N) (endname : E) (enabled : Bool) : Network E N :=
  { rn with enabled := Function.update rn.enabled endname enabled }

omit [DecidableEq E] [DecidableEq N]

/-- What `ReadEndnameInfo` returns. -/
structure EndnameInfo (N : Type) where
  enabled : Bool
  servername : Option N
  server : Option ℕ
  reliable : Bool
  longreordering : Bool

/-- What is known of an end and of the server that it is connected to, under one lock. -/
def readEndnameInfo (rn : Network E N) (endname : E) : EndnameInfo N :=
  { enabled := rn.enabled endname
    servername := rn.connections endname
    server := (rn.connections endname).bind rn.servers
    reliable := rn.reliable
    longreordering := rn.longReordering }

/-- Whether the end is disabled or another server stands under the name. -/
def isServerDead (rn : Network E N) (endname : E) (servername : N) (server : ℕ) : Bool :=
  rn.enabled endname = false || rn.servers servername ≠ some server

end Network

/-! ## One call -/

/-- The local variables of `ProcessReq` once it has found a server. -/
structure Target (N : Type) where
  servername : N
  server : ℕ
  reliable : Bool
  longreordering : Bool
  deriving DecidableEq

/-- Where `ProcessReq` is. -/
inductive Process (N : Type) where
  /-- The goroutine has been started. -/
  | accepted
  /-- In the short delay, before the request may be dropped. -/
  | delaying (t : Target N)
  /-- In the loop around `select`. -/
  | waiting (t : Target N)
  /-- The loop has been left, with the reply when `replyOK` is true. -/
  | left (t : Target N) (reply : Option ReplyMsg)
  /-- The server is not dead, and the reply may be dropped or delayed. -/
  | checked (t : Target N) (reply : ReplyMsg)
  /-- About to send on `replyCh`. -/
  | sending (msg : ReplyMsg)
  /-- `ProcessReq` has returned, and the function of its timer will send. -/
  | delayed (msg : ReplyMsg)
  /-- `ProcessReq` and its delayed send have finished. -/
  | done
  deriving DecidableEq

/-- Where the goroutine is that runs `dispatch`. -/
inductive Dispatch where
  | idle
  | spawned (server : ℕ)
  | running (server : ℕ)
  /-- It holds what `dispatch` returned and waits to send it on `ech`. -/
  | returned (server : ℕ) (reply : ReplyMsg)
  | delivered
  deriving DecidableEq

/-- A call that the network has accepted.  `draining` is the goroutine that takes a late reply
from `ech`, and `replies` are the messages sent on `replyCh`. -/
structure CallState (E N : Type) where
  req : ReqMsg E
  process : Process N
  dispatch : Dispatch
  draining : Bool
  replies : List ReplyMsg
  deriving DecidableEq

/-- The sections of the goroutines of one call, with their random choices. -/
inductive CallAction where
  | read
  | start (drop : Bool)
  | dispatch
  /-- The method has returned, and `reply` is what it left behind. -/
  | finish (reply : List UInt8)
  | receive
  | timeout
  | drain
  | recheck
  | answer (drop delay : Bool)
  | send
  | fire
  deriving DecidableEq

namespace CallState

variable {E N : Type}

/-- A request that the network has just taken. -/
def new (req : ReqMsg E) : CallState E N :=
  ⟨req, .accepted, .idle, false, []⟩

/-- `enabled && servername != nil && server != nil`. -/
def lookup (info : Network.EndnameInfo N) : Process N :=
  match info.enabled, info.servername, info.server with
  | true, some servername, some server =>
      .delaying ⟨servername, server, info.reliable, info.longreordering⟩
  | _, _, _ => .delayed .failure

/-- One section; `none` when the call is elsewhere. -/
def step (rn : Network E N) (call : CallState E N) : CallAction → Option (CallState E N)
  | .read =>
      match call.process with
      | .accepted => some { call with process := lookup (rn.readEndnameInfo call.req.endname) }
      | _ => none
  | .start drop =>
      match call.process with
      | .delaying t =>
          if !t.reliable && drop then some { call with process := .sending .failure }
          else some { call with process := .waiting t, dispatch := .spawned t.server }
      | _ => none
  | .dispatch =>
      match call.dispatch with
      | .spawned server => some { call with dispatch := .running server }
      | _ => none
  | .finish reply =>
      match call.dispatch with
      | .running server => some { call with dispatch := .returned server ⟨true, reply⟩ }
      | _ => none
  | .receive =>
      match call.process, call.dispatch with
      | .waiting t, .returned _ reply =>
          some { call with process := .left t (some reply), dispatch := .delivered }
      | _, _ => none
  | .timeout =>
      match call.process with
      | .waiting t =>
          if rn.isServerDead call.req.endname t.servername t.server then
            some { call with process := .left t none, draining := true }
          else some call
      | _ => none
  | .drain =>
      match call.dispatch with
      | .returned _ _ => if call.draining then some { call with dispatch := .delivered } else none
      | _ => none
  | .recheck =>
      match call.process with
      | .left t reply =>
          match reply, rn.isServerDead call.req.endname t.servername t.server with
          | some reply, false => some { call with process := .checked t reply }
          | _, _ => some { call with process := .sending .failure }
      | _ => none
  | .answer drop delay =>
      match call.process with
      | .checked t reply =>
          if !t.reliable && drop then some { call with process := .sending .failure }
          else if t.longreordering && delay then some { call with process := .delayed reply }
          else some { call with process := .sending reply }
      | _ => none
  | .send =>
      match call.process with
      | .sending msg => some { call with process := .done, replies := call.replies ++ [msg] }
      | _ => none
  | .fire =>
      match call.process with
      | .delayed msg => some { call with process := .done, replies := call.replies ++ [msg] }
      | _ => none

end CallState

/-! ## All calls -/

/-- The network, the servers by address, and the calls in the order of their acceptance. -/
structure State (E N : Type) where
  net : Network E N
  objects : ℕ → Server
  calls : List (CallState E N)

/-- The calls of the tester, the arrival of requests and the sections of the calls. -/
inductive Action (E N : Type) where
  | makeEnd (endname : E)
  | addServer (servername : N) (rs : Option ℕ)
  | deleteServer (servername : N)
  | connect (endname : E) (servername : Option N)
  | enable (endname : E) (enabled : Bool)
  | reliable (yes : Bool)
  | longReordering (yes : Bool)
  | addService (rs : ℕ) (name : String) (methods : List String)
  /-- The goroutine of the network takes a request and starts `ProcessReq`. -/
  | call (req : ReqMsg E)
  /-- A section of call number `c`. -/
  | run (c : ℕ) (a : CallAction)
  deriving DecidableEq

namespace State

variable {E N : Type} [DecidableEq E] [DecidableEq N]

/-- A new network. -/
def init : State E N :=
  ⟨.makeNetwork, fun _ => makeServer, []⟩

omit [DecidableEq E] [DecidableEq N] in
/-- The servers after a section: `dispatch` counts the request on its server. -/
def serve (s : State E N) (call : CallState E N) : CallAction → Option (ℕ → Server)
  | .dispatch =>
      match call.dispatch with
      | .spawned server =>
          ((s.objects server).dispatch call.req.svcMeth).map (Function.update s.objects server)
      | _ => none
  | _ => some s.objects

/-- One step; `none` when the action is not enabled. -/
def step (s : State E N) : Action E N → Option (State E N)
  | .makeEnd endname => (s.net.makeEnd endname).map fun net => { s with net := net }
  | .addServer servername rs => some { s with net := s.net.addServer servername rs }
  | .deleteServer servername => some { s with net := s.net.deleteServer servername }
  | .connect endname servername => some { s with net := s.net.connect endname servername }
  | .enable endname enabled => some { s with net := s.net.enable endname enabled }
  | .reliable yes => some { s with net := { s.net with reliable := yes } }
  | .longReordering yes => some { s with net := { s.net with longReordering := yes } }
  | .addService rs name methods =>
      some { s with
        objects := Function.update s.objects rs ((s.objects rs).addService name methods) }
  | .call req => some { s with calls := s.calls ++ [.new req] }
  | .run c a => do
      let call ← s.calls[c]?
      let call' ← call.step s.net a
      let objects ← s.serve call a
      some { s with objects := objects, calls := s.calls.set c call' }

end State

/-- The simulated network as a transition system. -/
def labrpcSystem (E N : Type) [DecidableEq E] [DecidableEq N] :
    TransitionSystem (State E N) (Action E N) :=
  ⟨.init, State.step⟩

/-! ## What a section can do -/

/-- Everything that a section can do to its call. -/
inductive CallMove {E N : Type} (rn : Network E N) (call : CallState E N) :
    CallAction → CallState E N → Prop where
  | unreachable (h : call.process = .accepted) :
      CallMove rn call .read { call with process := .delayed .failure }
  | found (t : Target N) (h : call.process = .accepted)
      (henabled : rn.enabled call.req.endname = true)
      (hconn : rn.connections call.req.endname = some t.servername)
      (hserver : rn.servers t.servername = some t.server) :
      CallMove rn call .read { call with process := .delaying t }
  | requestDropped (t : Target N) (drop : Bool) (h : call.process = .delaying t) :
      CallMove rn call (.start drop) { call with process := .sending .failure }
  | spawned (t : Target N) (drop : Bool) (h : call.process = .delaying t) :
      CallMove rn call (.start drop)
        { call with process := .waiting t, dispatch := .spawned t.server }
  | dispatched (server : ℕ) (h : call.dispatch = .spawned server) :
      CallMove rn call .dispatch { call with dispatch := .running server }
  | returned (server : ℕ) (reply : List UInt8) (h : call.dispatch = .running server) :
      CallMove rn call (.finish reply) { call with dispatch := .returned server ⟨true, reply⟩ }
  | received (t : Target N) (server : ℕ) (reply : ReplyMsg) (h : call.process = .waiting t)
      (hd : call.dispatch = .returned server reply) :
      CallMove rn call .receive
        { call with process := .left t (some reply), dispatch := .delivered }
  | stillAlive : CallMove rn call .timeout call
  | foundDead (t : Target N) (h : call.process = .waiting t) :
      CallMove rn call .timeout { call with process := .left t none, draining := true }
  | drained (server : ℕ) (reply : ReplyMsg) (h : call.dispatch = .returned server reply)
      (hdraining : call.draining = true) :
      CallMove rn call .drain { call with dispatch := .delivered }
  | failed (t : Target N) (reply : Option ReplyMsg) (h : call.process = .left t reply) :
      CallMove rn call .recheck { call with process := .sending .failure }
  | confirmed (t : Target N) (reply : ReplyMsg) (h : call.process = .left t (some reply))
      (henabled : rn.enabled call.req.endname = true)
      (hserver : rn.servers t.servername = some t.server) :
      CallMove rn call .recheck { call with process := .checked t reply }
  | replyDropped (t : Target N) (reply : ReplyMsg) (drop delay : Bool)
      (h : call.process = .checked t reply) :
      CallMove rn call (.answer drop delay) { call with process := .sending .failure }
  | replyDelayed (t : Target N) (reply : ReplyMsg) (drop delay : Bool)
      (h : call.process = .checked t reply) :
      CallMove rn call (.answer drop delay) { call with process := .delayed reply }
  | replied (t : Target N) (reply : ReplyMsg) (drop delay : Bool)
      (h : call.process = .checked t reply) :
      CallMove rn call (.answer drop delay) { call with process := .sending reply }
  | sent (msg : ReplyMsg) (h : call.process = .sending msg) :
      CallMove rn call .send
        { call with process := .done, replies := call.replies ++ [msg] }
  | fired (msg : ReplyMsg) (h : call.process = .delayed msg) :
      CallMove rn call .fire
        { call with process := .done, replies := call.replies ++ [msg] }

section Moves

variable {E N : Type}

/-- A look-up fails or finds a server. -/
theorem lookup_cases (info : Network.EndnameInfo N) :
    CallState.lookup info = .delayed .failure ∨ ∃ t, CallState.lookup info = .delaying t := by
  unfold CallState.lookup
  split
  · exact .inr ⟨_, rfl⟩
  · exact .inl rfl

/-- A look-up that succeeds, and what it has found. -/
theorem lookup_eq_delaying {rn : Network E N} {endname : E} {t : Target N} :
    CallState.lookup (rn.readEndnameInfo endname) = .delaying t ↔
      rn.enabled endname = true ∧ rn.connections endname = some t.servername ∧
        rn.servers t.servername = some t.server ∧ rn.reliable = t.reliable ∧
        rn.longReordering = t.longreordering := by
  obtain ⟨servername, server, reliable, longreordering⟩ := t
  rcases henabled : rn.enabled endname with _ | _
  · simp [CallState.lookup, Network.readEndnameInfo, henabled]
  · rcases hconn : rn.connections endname with _ | servername'
    · simp [CallState.lookup, Network.readEndnameInfo, henabled, hconn]
    · rcases hserver : rn.servers servername' with _ | server'
      · simp only [CallState.lookup, Network.readEndnameInfo, henabled, hconn, hserver,
          Option.bind_some, Option.some.injEq, true_and]
        refine ⟨fun h => absurd h (by simp), ?_⟩
        rintro ⟨rfl, hserver', -⟩
        rw [hserver] at hserver'
        cases hserver'
      · simp only [CallState.lookup, Network.readEndnameInfo, henabled, hconn, hserver,
          Option.bind_some, Process.delaying.injEq, Target.mk.injEq, Option.some.injEq, true_and]
        constructor
        · rintro ⟨rfl, rfl, hrest⟩
          exact ⟨rfl, hserver, hrest⟩
        · rintro ⟨rfl, hserver', hrest⟩
          rw [hserver] at hserver'
          exact ⟨rfl, Option.some.inj hserver', hrest⟩

theorem isServerDead_eq_false {rn : Network E N} {endname : E} {servername : N} {server : ℕ}
    (h : rn.isServerDead endname servername server = false) :
    rn.enabled endname = true ∧ rn.servers servername = some server := by
  simpa [Network.isServerDead] using h

section Sections

variable {rn : Network E N} {call call' : CallState E N}

/-- The look-up at the beginning of a call. -/
theorem callMove_read (h : call.step rn .read = some call') : CallMove rn call .read call' := by
  cases hp : call.process with
  | accepted =>
      simp only [CallState.step, hp, Option.some.injEq] at h
      subst h
      rcases lookup_cases (rn.readEndnameInfo call.req.endname) with heq | ⟨t, heq⟩
      · rw [heq]
        exact .unreachable hp
      · obtain ⟨henabled, hconn, hserver, -⟩ := lookup_eq_delaying.mp heq
        rw [heq]
        exact .found t hp henabled hconn hserver
  | _ => simp [CallState.step, hp] at h

/-- The request is dropped, or a goroutine is started for it. -/
theorem callMove_start {drop : Bool} (h : call.step rn (.start drop) = some call') :
    CallMove rn call (.start drop) call' := by
  cases hp : call.process with
  | delaying t =>
      by_cases hdrop : (!t.reliable && drop) = true
      · simp only [CallState.step, hp, if_pos hdrop, Option.some.injEq] at h
        subst h
        exact .requestDropped t drop hp
      · simp only [CallState.step, hp, if_neg hdrop, Option.some.injEq] at h
        subst h
        exact .spawned t drop hp
  | _ => simp [CallState.step, hp] at h

/-- The goroutine of the request calls the handler. -/
theorem callMove_dispatch (h : call.step rn .dispatch = some call') :
    CallMove rn call .dispatch call' := by
  cases hd : call.dispatch with
  | spawned server =>
      simp only [CallState.step, hd, Option.some.injEq] at h
      subst h
      exact .dispatched server hd
  | _ => simp [CallState.step, hd] at h

/-- The handler returns. -/
theorem callMove_finish {reply : List UInt8} (h : call.step rn (.finish reply) = some call') :
    CallMove rn call (.finish reply) call' := by
  cases hd : call.dispatch with
  | running server =>
      simp only [CallState.step, hd, Option.some.injEq] at h
      subst h
      exact .returned server reply hd
  | _ => simp [CallState.step, hd] at h

/-- The call receives the reply. -/
theorem callMove_receive (h : call.step rn .receive = some call') :
    CallMove rn call .receive call' := by
  cases hp : call.process with
  | waiting t =>
      cases hd : call.dispatch with
      | returned server reply =>
          simp only [CallState.step, hp, hd, Option.some.injEq] at h
          subst h
          exact .received t server reply hp hd
      | _ => simp [CallState.step, hp, hd] at h
  | _ => simp [CallState.step, hp] at h

/-- A tick of the loop that waits for the reply. -/
theorem callMove_timeout (h : call.step rn .timeout = some call') :
    CallMove rn call .timeout call' := by
  cases hp : call.process with
  | waiting t =>
      by_cases hdead : rn.isServerDead call.req.endname t.servername t.server = true
      · simp only [CallState.step, hp, if_pos hdead, Option.some.injEq] at h
        subst h
        exact .foundDead t hp
      · simp only [CallState.step, hp, if_neg hdead, Option.some.injEq] at h
        subst h
        exact .stillAlive
  | _ => simp [CallState.step, hp] at h

/-- The goroutine that drains the channel of a dead server. -/
theorem callMove_drain (h : call.step rn .drain = some call') :
    CallMove rn call .drain call' := by
  cases hd : call.dispatch with
  | returned server reply =>
      by_cases hdraining : call.draining = true
      · simp only [CallState.step, hd, if_pos hdraining, Option.some.injEq] at h
        subst h
        exact .drained server reply hd hdraining
      · simp [CallState.step, hd, hdraining] at h
  | _ => simp [CallState.step, hd] at h

/-- The second look at the server, after the loop. -/
theorem callMove_recheck (h : call.step rn .recheck = some call') :
    CallMove rn call .recheck call' := by
  cases hp : call.process with
  | left t reply =>
      cases reply with
      | none =>
          simp only [CallState.step, hp, Option.some.injEq] at h
          subst h
          exact .failed t none hp
      | some reply =>
          cases hdead : rn.isServerDead call.req.endname t.servername t.server with
          | true =>
              simp only [CallState.step, hp, hdead, Option.some.injEq] at h
              subst h
              exact .failed t (some reply) hp
          | false =>
              simp only [CallState.step, hp, hdead, Option.some.injEq] at h
              subst h
              obtain ⟨henabled, hserver⟩ := isServerDead_eq_false hdead
              exact .confirmed t reply hp henabled hserver
  | _ => simp [CallState.step, hp] at h

/-- The reply is dropped, delayed or sent. -/
theorem callMove_answer {drop delay : Bool} (h : call.step rn (.answer drop delay) = some call') :
    CallMove rn call (.answer drop delay) call' := by
  cases hp : call.process with
  | checked t reply =>
      by_cases hdrop : (!t.reliable && drop) = true
      · simp only [CallState.step, hp, if_pos hdrop, Option.some.injEq] at h
        subst h
        exact .replyDropped t reply drop delay hp
      · by_cases hdelay : (t.longreordering && delay) = true
        · simp only [CallState.step, hp, if_neg hdrop, if_pos hdelay, Option.some.injEq] at h
          subst h
          exact .replyDelayed t reply drop delay hp
        · simp only [CallState.step, hp, if_neg hdrop, if_neg hdelay, Option.some.injEq] at h
          subst h
          exact .replied t reply drop delay hp
  | _ => simp [CallState.step, hp] at h

/-- The reply goes to the client. -/
theorem callMove_send (h : call.step rn .send = some call') : CallMove rn call .send call' := by
  cases hp : call.process with
  | sending msg =>
      simp only [CallState.step, hp, Option.some.injEq] at h
      subst h
      exact .sent msg hp
  | _ => simp [CallState.step, hp] at h

/-- The timer of a delayed reply fires. -/
theorem callMove_fire (h : call.step rn .fire = some call') : CallMove rn call .fire call' := by
  cases hp : call.process with
  | delayed msg =>
      simp only [CallState.step, hp, Option.some.injEq] at h
      subst h
      exact .fired msg hp
  | _ => simp [CallState.step, hp] at h

/-- The sections, once and for all. -/
theorem callMove_of_step {a : CallAction} (h : call.step rn a = some call') :
    CallMove rn call a call' := by
  cases a with
  | read => exact callMove_read h
  | start drop => exact callMove_start h
  | dispatch => exact callMove_dispatch h
  | finish reply => exact callMove_finish h
  | receive => exact callMove_receive h
  | timeout => exact callMove_timeout h
  | drain => exact callMove_drain h
  | recheck => exact callMove_recheck h
  | answer drop delay => exact callMove_answer h
  | send => exact callMove_send h
  | fire => exact callMove_fire h

end Sections

variable [DecidableEq E] [DecidableEq N]

/-- A section moves its call. -/
theorem run_of_step {s s' : State E N} {c : ℕ} {b : CallAction} (h : s.step (.run c b) = some s') :
    ∃ call call', s.calls[c]? = some call ∧ CallMove s.net call b call' ∧
      s'.calls = s.calls.set c call' := by
  obtain ⟨call, hcall, h⟩ := Option.bind_eq_some_iff.mp h
  obtain ⟨call', hstep, h⟩ := Option.bind_eq_some_iff.mp h
  obtain ⟨objects, -, h⟩ := Option.bind_eq_some_iff.mp h
  obtain rfl := Option.some.inj h
  exact ⟨call, call', hcall, callMove_of_step hstep, rfl⟩

/-- What a step does to the list of calls: it adds one, moves one, or leaves them alone. -/
theorem calls_of_step {s s' : State E N} {a : Action E N} (h : s.step a = some s') :
    s'.calls = s.calls ∨ (∃ req, a = .call req ∧ s'.calls = s.calls ++ [.new req]) ∨
      ∃ c b call call', a = .run c b ∧ s.calls[c]? = some call ∧ CallMove s.net call b call' ∧
        s'.calls = s.calls.set c call' := by
  cases a with
  | makeEnd endname =>
      obtain ⟨net, -, rfl⟩ := Option.map_eq_some_iff.mp h
      exact .inl rfl
  | call req =>
      obtain rfl := Option.some.inj h
      exact .inr (.inl ⟨req, rfl, rfl⟩)
  | run c b =>
      obtain ⟨call, call', hcall, hmove, hcalls⟩ := run_of_step h
      exact .inr (.inr ⟨c, b, call, call', rfl, hcall, hmove, hcalls⟩)
  | _ =>
      obtain rfl := Option.some.inj h
      exact .inl rfl

/-- What a step does to one call. -/
theorem call_of_step {s s' : State E N} {a : Action E N} (h : s.step a = some s') {c : ℕ}
    {call' : CallState E N} (hc : s'.calls[c]? = some call') :
    s.calls[c]? = some call' ∨ (∃ req, call' = .new req) ∨
      ∃ b call, a = .run c b ∧ s.calls[c]? = some call ∧ CallMove s.net call b call' := by
  rcases calls_of_step h with heq | ⟨req, rfl, heq⟩ | ⟨c', b, call, moved, rfl, hcall, hmove, heq⟩
  · rw [heq] at hc
    exact .inl hc
  · rw [heq, List.getElem?_append] at hc
    by_cases hlt : c < s.calls.length
    · rw [if_pos hlt] at hc
      exact .inl hc
    · rw [if_neg hlt, List.getElem?_singleton] at hc
      by_cases hzero : c - s.calls.length = 0
      · rw [if_pos hzero] at hc
        exact .inr (.inl ⟨req, (Option.some.inj hc).symm⟩)
      · rw [if_neg hzero] at hc
        cases hc
  · rw [heq] at hc
    rcases eq_or_ne c' c with rfl | hne
    · rw [List.getElem?_set_self (List.getElem?_eq_some_iff.mp hcall).1] at hc
      obtain rfl := Option.some.inj hc
      exact .inr (.inr ⟨b, call, rfl, hcall, hmove⟩)
    · rw [List.getElem?_set_ne hne] at hc
      exact .inl hc

/-- A call stays in the list. -/
theorem call_after_step {s s' : State E N} {a : Action E N} (h : s.step a = some s') {c : ℕ}
    {call : CallState E N} (hc : s.calls[c]? = some call) :
    ∃ call', s'.calls[c]? = some call' ∧
      (call' = call ∨ ∃ b, a = .run c b ∧ CallMove s.net call b call') := by
  have hlt := (List.getElem?_eq_some_iff.mp hc).1
  rcases calls_of_step h with heq | ⟨req, rfl, heq⟩ | ⟨c', b, old, moved, rfl, hold, hmove, heq⟩
  · exact ⟨call, by rw [heq, hc], .inl rfl⟩
  · exact ⟨call, by rw [heq, List.getElem?_append_left hlt, hc], .inl rfl⟩
  · rcases eq_or_ne c' c with rfl | hne
    · obtain rfl : old = call := Option.some.inj (hold.symm.trans hc)
      exact ⟨moved, by rw [heq, List.getElem?_set_self hlt], .inr ⟨b, rfl, hmove⟩⟩
    · exact ⟨call, by rw [heq, List.getElem?_set_ne hne, hc], .inl rfl⟩

end Moves

/-! ## One reply, one dispatch -/

/-- The server that the goroutine of `dispatch` is busy with. -/
def Dispatch.server? : Dispatch → Option ℕ
  | .spawned server | .running server | .returned server _ => some server
  | _ => none

/-- How far `dispatch` is. -/
def Dispatch.rank : Dispatch → ℕ
  | .idle => 0
  | .spawned _ => 1
  | .running _ => 2
  | .returned _ _ => 3
  | .delivered => 4

/-- What the goroutines of a call agree on: nothing is dispatched before the look-up, the loop
waits for the goroutine of its own server, and the reply is sent at the end. -/
def CallState.Consistent {E N : Type} (call : CallState E N) : Prop :=
  match call.process with
  | .accepted | .delaying _ =>
      call.dispatch = .idle ∧ call.draining = false ∧ call.replies = []
  | .waiting t =>
      call.dispatch.server? = some t.server ∧ call.draining = false ∧ call.replies = []
  | .done => call.replies.length = 1
  | _ => call.replies = []

section Consistent

variable {E N : Type} {rn : Network E N} {call call' : CallState E N} {a : CallAction}

/-- The goroutine of `dispatch` goes on with the same server. -/
theorem CallState.Consistent.setDispatch (hc : call.Consistent) {d : Dispatch}
    (hidle : call.dispatch ≠ .idle) (hserver : d.server? = call.dispatch.server?) :
    CallState.Consistent { call with dispatch := d } := by
  cases hp : call.process with
  | accepted =>
      simp only [CallState.Consistent, hp] at hc
      exact absurd hc.1 hidle
  | delaying t =>
      simp only [CallState.Consistent, hp] at hc
      exact absurd hc.1 hidle
  | waiting t =>
      simp only [CallState.Consistent, hp] at hc ⊢
      exact ⟨hserver.trans hc.1, hc.2⟩
  | _ => simpa only [CallState.Consistent, hp] using hc

/-- The goroutine of `dispatch` hands a late reply to the one that drains. -/
theorem CallState.Consistent.setDelivered (hc : call.Consistent) (hd : call.draining = true) :
    CallState.Consistent { call with dispatch := .delivered } := by
  cases hp : call.process with
  | accepted => simp [CallState.Consistent, hp, hd] at hc
  | delaying t => simp [CallState.Consistent, hp, hd] at hc
  | waiting t => simp [CallState.Consistent, hp, hd] at hc
  | _ => simpa only [CallState.Consistent, hp] using hc

/-- Every section keeps the goroutines in agreement. -/
theorem CallMove.consistent (h : CallMove rn call a call') (hc : call.Consistent) :
    call'.Consistent := by
  cases h with
  | stillAlive => exact hc
  | dispatched server hd =>
      refine hc.setDispatch ?_ ?_
      · rw [hd]
        exact nofun
      · rw [hd]
        rfl
  | returned server reply hd =>
      refine hc.setDispatch ?_ ?_
      · rw [hd]
        exact nofun
      · rw [hd]
        rfl
  | drained server reply hd hdraining => exact hc.setDelivered hdraining
  | _ => simp_all [CallState.Consistent, Dispatch.server?]

/-- `dispatch` never goes back. -/
theorem CallMove.rank_le (h : CallMove rn call a call') (hc : call.Consistent) :
    call.dispatch.rank ≤ call'.dispatch.rank := by
  cases h with
  | spawned t drop hp =>
      -- nothing has been dispatched so far
      simp only [CallState.Consistent, hp] at hc
      rw [hc.1]
      exact Nat.zero_le _
  | dispatched server hd =>
      rw [hd]
      exact Nat.le_succ 1
  | returned server reply hd =>
      rw [hd]
      exact Nat.le_succ 2
  | received t server reply hp hd =>
      rw [hd]
      exact Nat.le_succ 3
  | drained server reply hd =>
      rw [hd]
      exact Nat.le_succ 3
  | _ => exact le_rfl

end Consistent

/-! ## Whole runs -/

section Runs

variable {E N : Type} [DecidableEq E] [DecidableEq N]

theorem consistent_run (r : (labrpcSystem E N).Run) (k : ℕ) :
    ∀ (c : ℕ) (call : CallState E N), (r.state k).calls[c]? = some call → call.Consistent := by
  refine r.invariant r.meets_true (I := fun s => ∀ (c : ℕ) (call : CallState E N),
    s.calls[c]? = some call → call.Consistent) ?_ ?_ k
  · intro c call hc
    cases hc
  · intro s a s' ih _ hstep c call' hc
    rcases call_of_step hstep hc with hold | ⟨req, rfl⟩ | ⟨b, call, -, hold, hmove⟩
    · exact ih c call' hold
    · exact ⟨rfl, rfl, rfl⟩
    · exact hmove.consistent (ih c call hold)

/-- From now on `dispatch` is at least as far, for the same request. -/
theorem rank_le_of_le (r : (labrpcSystem E N).Run) {j k : ℕ} (hjk : j ≤ k) {c : ℕ}
    {call : CallState E N} (hc : (r.state j).calls[c]? = some call) :
    ∃ call', (r.state k).calls[c]? = some call' ∧ call.dispatch.rank ≤ call'.dispatch.rank := by
  refine r.rel_of_le r.meets_true (R := fun s s' => ∀ (c : ℕ) (call : CallState E N),
    s.calls[c]? = some call → ∃ call', s'.calls[c]? = some call' ∧
      call.dispatch.rank ≤ call'.dispatch.rank)
    ?_ ?_ ?_ hjk c call hc
  · exact fun s c call hc => ⟨call, hc, le_rfl⟩
  · intro s₁ s₂ s₃ h₁₂ h₂₃ c call hc
    obtain ⟨call₂, hc₂, hle₂⟩ := h₁₂ c call hc
    obtain ⟨call₃, hc₃, hle₃⟩ := h₂₃ c call₂ hc₂
    exact ⟨call₃, hc₃, hle₂.trans hle₃⟩
  · intro k a _ _ hstep c call hc
    obtain ⟨call', hc', rfl | ⟨b, -, hmove⟩⟩ := call_after_step hstep hc
    · exact ⟨call', hc', le_rfl⟩
    · exact ⟨call', hc', hmove.rank_le (consistent_run r k c call hc)⟩

/-- **At most one dispatch.** -/
theorem dispatch_unique (r : (labrpcSystem E N).Run) {c i j : ℕ}
    (hi : r.act i = some (.run c .dispatch)) (hj : r.act j = some (.run c .dispatch)) : i = j := by
  -- the goroutine waits to begin before a dispatch, and has begun after it
  have hbegun : ∀ {k}, r.act k = some (.run c .dispatch) → ∃ call call' : CallState E N,
      (r.state k).calls[c]? = some call ∧ call.dispatch.rank = 1 ∧
      (r.state (k + 1)).calls[c]? = some call' ∧ call'.dispatch.rank = 2 := by
    intro k hk
    obtain ⟨call, call', hcall, hmove, hcalls⟩ := run_of_step (r.taken k _ hk)
    have hlt := (List.getElem?_eq_some_iff.mp hcall).1
    cases hmove with
    | dispatched server hd =>
        exact ⟨call, _, hcall, by rw [hd]; rfl, by rw [hcalls, List.getElem?_set_self hlt], rfl⟩
  have hlt : ∀ {i j}, i < j → r.act i = some (.run c .dispatch) →
      r.act j ≠ some (.run c .dispatch) := by
    intro i j hij hi hj
    obtain ⟨-, call, -, -, hcall, hrank⟩ := hbegun hi
    obtain ⟨call₂, -, hcall₂, hrank₂, -, -⟩ := hbegun hj
    obtain ⟨call₃, hcall₃, hle⟩ := rank_le_of_le r hij hcall
    obtain rfl : call₂ = call₃ := Option.some.inj (hcall₂.symm.trans hcall₃)
    omega
  rcases lt_trichotomy i j with hij | heq | hji
  · exact absurd hj (hlt hij hi)
  · exact heq
  · exact absurd hi (hlt hji hj)

/-! ## Where a reply comes from -/

/-- `dispatch` of call `c` begins at moment `i`, on `server`. -/
def Begins (r : (labrpcSystem E N).Run) (c i server : ℕ) : Prop :=
  r.act i = some (.run c .dispatch) ∧
    ∃ call, (r.state i).calls[c]? = some call ∧ call.dispatch = .spawned server

/-- `dispatch` of call `c` returns at moment `j`, from `server`. -/
def Returns (r : (labrpcSystem E N).Run) (c j server : ℕ) (reply : List UInt8) : Prop :=
  r.act j = some (.run c (.finish reply)) ∧
    ∃ call, (r.state j).calls[c]? = some call ∧ call.dispatch = .running server

/-- At moment `i` the end of call `c` is enabled and connected to `servername`, under which
`server` is registered, and call `c` reads this. -/
def Finds (r : (labrpcSystem E N).Run) (c i : ℕ) (endname : E) (servername : N) (server : ℕ) :
    Prop :=
  r.act i = some (.run c .read) ∧ (r.state i).net.enabled endname = true ∧
    (r.state i).net.connections endname = some servername ∧
    (r.state i).net.servers servername = some server

/-- `dispatch` of call `c` ran to completion on `server` before moment `k`. -/
def Completed (r : (labrpcSystem E N).Run) (c k server : ℕ) (reply : List UInt8) : Prop :=
  ∃ i j, Begins r c i server ∧ i < j ∧ Returns r c j server reply ∧ j < k

/-- The reply is what `dispatch` returned, on the server that call `c` had found; and at a later
moment, before moment `k`, the end was enabled and this server was still registered. -/
def Vouched (r : (labrpcSystem E N).Run) (c k : ℕ) (endname : E) (reply : List UInt8) : Prop :=
  ∃ (servername : N) (server l : ℕ), (∃ i < l, Finds r c i endname servername server) ∧
    Completed r c l server reply ∧ l < k ∧ (r.state l).net.enabled endname = true ∧
    (r.state l).net.servers servername = some server

/-- The server that `ProcessReq` has found and still uses. -/
def Process.target? : Process N → Option (Target N)
  | .delaying t | .waiting t | .left t _ | .checked t _ => some t
  | _ => none

/-- The reply that is on its way. -/
def Process.pending? : Process N → Option ReplyMsg
  | .checked _ reply | .sending reply | .delayed reply => some reply
  | _ => none

/-- What has happened before moment `k` when call `c` is in state `call`. -/
structure Past (r : (labrpcSystem E N).Run) (c k : ℕ) (call : CallState E N) : Prop where
  found : ∀ t, call.process.target? = some t →
    ∃ i < k, Finds r c i call.req.endname t.servername t.server
  begun : ∀ server, call.dispatch = .running server → ∃ i < k, Begins r c i server
  returned : ∀ server m, call.dispatch = .returned server m → Completed r c k server m.reply
  received : ∀ t m, call.process = .left t (some m) → Completed r c k t.server m.reply
  pending : ∀ m, m.ok = true → call.process.pending? = some m →
    Vouched r c k call.req.endname m.reply
  replied : ∀ m ∈ call.replies, m.ok = true → Vouched r c k call.req.endname m.reply

section Past

variable {r : (labrpcSystem E N).Run} {c k : ℕ} {call call' : CallState E N}

theorem Completed.mono {k' server : ℕ} {reply : List UInt8} (h : Completed r c k server reply)
    (hle : k ≤ k') : Completed r c k' server reply := by
  obtain ⟨i, j, hi, hij, hj, hlt⟩ := h
  exact ⟨i, j, hi, hij, hj, hlt.trans_le hle⟩

theorem Vouched.mono {k' : ℕ} {endname : E} {reply : List UInt8}
    (h : Vouched r c k endname reply) (hle : k ≤ k') : Vouched r c k' endname reply := by
  obtain ⟨servername, server, l, hfound, hdone, hlt, halive⟩ := h
  exact ⟨servername, server, l, hfound, hdone, hlt.trans_le hle, halive⟩

/-- The past does not change. -/
theorem Past.mono {k' : ℕ} (h : Past r c k call) (hle : k ≤ k') : Past r c k' call where
  found t ht := by
    obtain ⟨i, hi, hfinds⟩ := h.found t ht
    exact ⟨i, hi.trans_le hle, hfinds⟩
  begun server hd := by
    obtain ⟨i, hi, hbegins⟩ := h.begun server hd
    exact ⟨i, hi.trans_le hle, hbegins⟩
  returned server m hd := (h.returned server m hd).mono hle
  received t m hp := (h.received t m hp).mono hle
  pending m hok hp := (h.pending m hok hp).mono hle
  replied m hm hok := (h.replied m hm hok).mono hle

theorem past_new (req : ReqMsg E) : Past r c k (.new req) := by
  constructor
  · exact fun _ h => nomatch h
  · exact fun _ h => nomatch h
  · exact fun _ _ h => nomatch h
  · exact fun _ _ h => nomatch h
  · exact fun _ _ h => nomatch h
  · exact fun _ h => absurd h List.not_mem_nil

/-- `ProcessReq` moves on. -/
theorem Past.setProcess (h : Past r c k call) {p : Process N}
    (hfound : ∀ t, p.target? = some t → call.process.target? = some t ∨
      ∃ i < k, Finds r c i call.req.endname t.servername t.server)
    (hreceived : ∀ t m, p = .left t (some m) → Completed r c k t.server m.reply)
    (hpending : ∀ m, m.ok = true → p.pending? = some m → call.process.pending? = some m ∨
      Vouched r c k call.req.endname m.reply) :
    Past r c k { call with process := p } where
  found t ht := (hfound t ht).elim (h.found t) id
  begun := h.begun
  returned := h.returned
  received := hreceived
  pending m hok hp := (hpending m hok hp).elim (h.pending m hok) id
  replied := h.replied

/-- `ProcessReq` gives up. -/
theorem Past.setFailure (h : Past r c k call) {p : Process N} (hp : p.target? = none)
    (hm : p.pending? = some .failure) : Past r c k { call with process := p } := by
  refine h.setProcess ?_ ?_ ?_
  · intro t ht
    rw [hp] at ht
    cases ht
  · rintro t m rfl
    cases hp
  · intro m hok hpend
    rw [hm] at hpend
    obtain rfl := Option.some.inj hpend
    cases hok

/-- The message has been sent. -/
theorem Past.setDone (h : Past r c k call) {msg : ReplyMsg}
    (hp : call.process.pending? = some msg) :
    Past r c k { call with process := .done, replies := call.replies ++ [msg] } where
  found _ ht := nomatch ht
  begun := h.begun
  returned := h.returned
  received _ _ hp := nomatch hp
  pending _ _ hp := nomatch hp
  replied m hm hok := by
    rcases List.mem_append.mp hm with hold | hnew
    · exact h.replied m hold hok
    · obtain rfl := List.mem_singleton.mp hnew
      exact h.pending m hok hp

/-- A section taken at moment `k` leads from the past of `k` to that of `k + 1`. -/
theorem CallMove.past {b : CallAction} (h : CallMove (r.state k).net call b call')
    (hact : r.act k = some (.run c b)) (hcall : (r.state k).calls[c]? = some call)
    (hc : call.Consistent) (hpast : Past r c k call) : Past r c (k + 1) call' := by
  have hnext := hpast.mono (Nat.le_succ k)
  cases h with
  | unreachable hp => exact hnext.setFailure rfl rfl
  | found t hp henabled hconn hserver =>
      refine hnext.setProcess ?_ nofun nofun
      intro t' ht
      obtain rfl := Option.some.inj ht
      exact .inr ⟨k, Nat.lt_succ_self k, hact, henabled, hconn, hserver⟩
  | requestDropped t drop hp => exact hnext.setFailure rfl rfl
  | spawned t drop hp =>
      exact { hnext with
        found := fun t' ht => hnext.found t' (by rw [hp]; exact ht)
        begun := nofun
        returned := nofun
        received := nofun
        pending := nofun }
  | dispatched server hd =>
      exact { hnext with
        begun := by
          rintro _ ⟨⟩
          exact ⟨k, Nat.lt_succ_self k, hact, call, hcall, hd⟩
        returned := nofun }
  | returned server reply hd =>
      obtain ⟨i, hi, hbegins⟩ := hpast.begun server hd
      exact { hnext with
        begun := nofun
        returned := by
          rintro _ _ ⟨⟩
          exact ⟨i, k, hbegins, hi, ⟨hact, call, hcall, hd⟩, Nat.lt_succ_self k⟩ }
  | received t server reply hp hd =>
      -- the loop waits for the goroutine of its own server
      simp only [CallState.Consistent, hp, hd, Dispatch.server?, Option.some.injEq] at hc
      exact { hnext with
        found := fun t' ht => hnext.found t' (by rw [hp]; exact ht)
        begun := nofun
        returned := nofun
        received := by
          rintro _ _ ⟨⟩
          rw [← hc.1]
          exact hnext.returned server reply hd
        pending := nofun }
  | stillAlive => exact hnext
  | foundDead t hp =>
      exact { hnext with
        found := fun t' ht => hnext.found t' (by rw [hp]; exact ht)
        received := nofun
        pending := nofun }
  | drained server reply hd hdraining =>
      exact { hnext with
        begun := nofun
        returned := nofun }
  | failed t reply hp => exact hnext.setFailure rfl rfl
  | confirmed t reply hp henabled hserver =>
      -- this is the moment at which the server is seen again
      refine hnext.setProcess (fun t' ht => .inl (by rw [hp]; exact ht)) nofun ?_
      rintro m hok ⟨⟩
      obtain ⟨i, hi, hfinds⟩ := hpast.found t (by rw [hp]; rfl)
      exact .inr ⟨t.servername, t.server, k, ⟨i, hi, hfinds⟩, hpast.received t reply hp,
        Nat.lt_succ_self k, henabled, hserver⟩
  | replyDropped t reply drop delay hp => exact hnext.setFailure rfl rfl
  | replyDelayed t reply drop delay hp =>
      exact hnext.setProcess nofun nofun fun m _ hm => .inl (by rw [hp]; exact hm)
  | replied t reply drop delay hp =>
      exact hnext.setProcess nofun nofun fun m _ hm => .inl (by rw [hp]; exact hm)
  | sent msg hp => exact hnext.setDone (by rw [hp]; rfl)
  | fired msg hp => exact hnext.setDone (by rw [hp]; rfl)

end Past

theorem past_run (r : (labrpcSystem E N).Run) (k : ℕ) :
    ∀ (c : ℕ) (call : CallState E N), (r.state k).calls[c]? = some call → Past r c k call := by
  -- induction on the moment, because the past grows with it
  induction k with
  | zero =>
      intro c call hc
      rw [r.state_zero] at hc
      cases hc
  | succ k ih =>
      intro c call' hc
      rcases ha : r.act k with _ | a
      · rw [r.idle k ha] at hc
        exact (ih c call' hc).mono (Nat.le_succ k)
      · rcases call_of_step (r.taken k a ha) hc with
          hold | ⟨req, rfl⟩ | ⟨b, call, rfl, hold, hmove⟩
        · exact (ih c call' hold).mono (Nat.le_succ k)
        · exact past_new req
        · exact hmove.past ha hold (consistent_run r k c call hold) (ih c call hold)

/-- **A call is at most once and honest.**  In every run, with any changes of the network, any
drops and delays, and any other calls: call `c` is dispatched at most once; exactly one reply has
been sent once `ProcessReq` and its delayed send have finished, and none before; and a reply
with `ok` is what `dispatch` returned when it ran to completion on the server that the call had
found, and at some later moment the end was enabled and this server was still registered under
its name. -/
theorem call_at_most_once_and_honest (r : (labrpcSystem E N).Run) (c : ℕ) :
    (∀ i j, r.act i = some (.run c .dispatch) → r.act j = some (.run c .dispatch) → i = j) ∧
      ∀ (k : ℕ) (call : CallState E N), (r.state k).calls[c]? = some call →
        (call.process = .done → ∃ m, call.replies = [m]) ∧
        (call.process ≠ .done → call.replies = []) ∧
        ∀ m ∈ call.replies, m.ok = true → Vouched r c k call.req.endname m.reply := by
  refine ⟨fun i j hi hj => dispatch_unique r hi hj, ?_⟩
  intro k call hcall
  have hc := consistent_run r k c call hcall
  refine ⟨?_, ?_, (past_run r k c call hcall).replied⟩
  · intro hdone
    simp only [CallState.Consistent, hdone] at hc
    exact List.length_eq_one_iff.mp hc
  · intro hnot
    cases hp : call.process with
    | done => exact absurd hp hnot
    | accepted =>
        simp only [CallState.Consistent, hp] at hc
        exact hc.2.2
    | delaying t =>
        simp only [CallState.Consistent, hp] at hc
        exact hc.2.2
    | waiting t =>
        simp only [CallState.Consistent, hp] at hc
        exact hc.2.2
    | _ => simpa only [CallState.Consistent, hp] using hc

end Runs

/-- A call that gets its answer after a delay. -/
def delayedAnswer : List (Action ℕ ℕ) :=
  [.makeEnd 0, .addService 7 "Raft" ["RequestVote"], .addServer 1 (some 7), .connect 0 (some 1),
    .enable 0 true, .longReordering true, .call ⟨0, "Raft.RequestVote"⟩, .run 0 .read,
    .run 0 (.start false), .run 0 .timeout, .run 0 .dispatch, .run 0 (.finish [42]),
    .run 0 .receive, .run 0 .recheck, .run 0 (.answer false true), .enable 0 false, .run 0 .fire]

example : ((((labrpcSystem ℕ ℕ).ofList delayedAnswer).state 17).calls.map CallState.replies) =
    [[⟨true, [42]⟩]] := by
  decide

end Mit6824.Labrpc
