/-
# The key/value service over an ideal Raft

Clerks, the network between them and the servers, the handlers of `Get` and
`PutAppend`, and the apply loops of all server incarnations, translated from
`kvraft/client.go` and `kvraft/server.go`.

Raft is ideal here.  There is one agreed sequence of operations (`agreed`).  A
call of `Start` puts its operation into a pool (`starts`) and returns an
arbitrary index and an arbitrary `isLeader`; an operation of the pool may at any
later time be moved to the end of the agreed sequence, once, so it never takes a
position that was delivered before `Start` was called.  Every incarnation gets
the operations of the sequence in order.

* Clerks are numbered by their client ids, so these are distinct;
* the network never forgets a request: it may reach its server at any later time,
  never, or several times.  A reply counts only for the `Call` that waits for it,
  and a `Call` may give up at any time;
* a restart makes a new incarnation the one that gets the requests; the goroutines
  of the old one, which nothing stops, may go on.
-/
import Mit6824.TransitionSystem
import Mit6824.ObjectHistory
import Mit6824.KvServer

namespace Mit6824

/-! ## Data -/

/-- `raftkv.GetArgs`. -/
structure GetArgs where
  key : String
  clientId : ℕ
  requestId : ℕ

/-- `raftkv.PutAppendArgs`. -/
structure PutAppendArgs where
  key : String
  value : String
  op : OpName
  clientId : ℕ
  requestId : ℕ

/-- The values of `raftkv.Err` that handlers set; the zero value is `none`. -/
inductive Err where
  | none
  | errNoKey
  deriving DecidableEq, Repr

/-- `raftkv.GetReply`. -/
structure GetReply where
  wrongLeader : Bool
  err : Err := .none
  value : String := ""

/-- `raftkv.PutAppendReply`. -/
structure PutAppendReply where
  wrongLeader : Bool
  err : Err := .none

/-- The arguments of a call of `KVServer.Get` or `KVServer.PutAppend`. -/
inductive Args where
  | get (args : GetArgs)
  | putAppend (args : PutAppendArgs)

/-- The reply of either handler. -/
inductive Reply where
  | get (reply : GetReply)
  | putAppend (reply : PutAppendReply)

/-- What a client asks a Clerk for: `Get(key)`, `Put(key, value)` or
`Append(key, value)`. -/
inductive KvInput where
  | get (key : String)
  | put (key value : String)
  | append (key value : String)
  deriving DecidableEq

/-- The `Op` that a handler makes of its arguments. -/
def Args.op : Args → Op
  | .get args => ⟨args.key, "", .get, args.clientId, args.requestId⟩
  | .putAppend args => ⟨args.key, args.value, args.op, args.clientId, args.requestId⟩

/-- A reply with `WrongLeader = true`, and nothing else set. -/
def Args.wrongLeader : Args → Reply
  | .get _ => .get { wrongLeader := true }
  | .putAppend _ => .putAppend { wrongLeader := true }

/-- `reply.WrongLeader`. -/
def Reply.isWrongLeader : Reply → Bool
  | .get reply => reply.wrongLeader
  | .putAppend reply => reply.wrongLeader

/-- What the Clerk returns to its client: the value of a `Get`, and nothing
otherwise. -/
def Reply.output : Reply → Option String
  | .get reply => some reply.value
  | .putAppend _ => none

/-- The arguments that `Clerk.Get` and `Clerk.PutAppend` send. -/
def KvInput.args (input : KvInput) (clientId requestId : ℕ) : Args :=
  match input with
  | .get key => .get ⟨key, clientId, requestId⟩
  | .put key value => .putAppend ⟨key, value, .put, clientId, requestId⟩
  | .append key value => .putAppend ⟨key, value, .append, clientId, requestId⟩

/-- The loop of `Clerk.Get` or `Clerk.PutAppend` under way: the request, and the number
of the `Call` that it is in. -/
structure ClerkLoop where
  input : KvInput
  requestId : ℕ
  call : Option ℕ

/-- `raftkv.Clerk`, with its loop when a client has called it. -/
structure Clerk (n : ℕ) where
  leaderId : Fin (n + 1)
  lastRequestId : ℕ
  loop : Option ClerkLoop

/-- A request on the network. -/
structure Rpc (n : ℕ) where
  server : Fin (n + 1)
  args : Args

/-- Where a handler stands: before `Start`; before the first critical section of
`waitApplying`; in the `select`; with a notification, before the second critical
section; in `Get` before it reads `kv.db`; returned. -/
inductive HandlerPc where
  | start
  | register (index : ℕ)
  | wait (index ch : ℕ)
  | notified (index : ℕ) (notification : Notification)
  | read
  | done

/-- A handler goroutine: the request it answers, the server incarnation it runs on, its
arguments and where it stands. -/
structure Handler (n : ℕ) where
  rpc : ℕ
  server : Fin (n + 1)
  epoch : ℕ
  args : Args
  pc : HandlerPc

/-- A server incarnation: the server and how many messages its apply loop has taken. -/
structure Incarnation where
  kv : KVServer
  received : ℕ

/-- What the clients see. -/
abbrev KvEvent := ObjectHistory.Event (ℕ × ℕ) KvInput (Option String)

/-- The state of the service. -/
structure KvService (n : ℕ) where
  clerks : ℕ → Clerk n
  calls : List (Rpc n)
  replies : List (ℕ × Reply)
  epoch : Fin (n + 1) → ℕ
  servers : Fin (n + 1) × ℕ → Incarnation
  handlers : List (Handler n)
  starts : List Op
  agreed : List Op
  history : List KvEvent

/-- The steps of the service. -/
inductive KvAction (n : ℕ) where
  /-- A client calls its Clerk. -/
  | invoke (client : ℕ) (input : KvInput)
  /-- The loop of the Clerk makes a `Call`. -/
  | call (client : ℕ)
  /-- `Call` returns `false`. -/
  | callFails (client : ℕ)
  /-- Reply number `m` reaches the Clerk that waits for it. -/
  | callReturns (client m : ℕ)
  /-- Request number `m` reaches its server. -/
  | request (m : ℕ)
  /-- Handler `k` calls `Start`, which returns `index` and `isLeader`. -/
  | start (k index : ℕ) (isLeader : Bool)
  | register (k : ℕ)
  /-- Handler `k` receives a notification. -/
  | receive (k : ℕ)
  /-- The timer of handler `k` fires. -/
  | timeout (k : ℕ)
  /-- Handler `k`, notified, runs its second critical section. -/
  | unregister (k : ℕ)
  /-- Handler `k` of `Get` reads `kv.db`. -/
  | read (k : ℕ)
  /-- Raft adds the operation of pending `Start` number `k` to the agreed sequence. -/
  | agree (k : ℕ)
  /-- The apply loop of an incarnation that has begun takes its next message. -/
  | apply (server : Fin (n + 1)) (epoch : ℕ)
  /-- The apply loop of an incarnation hands its notification over. -/
  | notify (server : Fin (n + 1)) (epoch : ℕ)
  | restart (server : Fin (n + 1))

namespace KvService

variable {n : ℕ}

/-! ## The steps -/

/-- No Clerk has been used, and all incarnations of all servers are still to begin. -/
def init (n : ℕ) : KvService n where
  clerks := fun _ => ⟨0, 0, none⟩
  calls := []
  replies := []
  epoch := fun _ => 0
  servers := fun _ => ⟨KVServer.start, 0⟩
  handlers := []
  starts := []
  agreed := []
  history := []

/-- Clerk number `client` moves. -/
def setClerk (c : KvService n) (client : ℕ) (clerk : Clerk n) : KvService n :=
  { c with clerks := Function.update c.clerks client clerk }

/-- An incarnation moves. -/
def setServer (c : KvService n) (i : Fin (n + 1) × ℕ) (server : Incarnation) : KvService n :=
  { c with servers := Function.update c.servers i server }

/-- Handler number `k` moves on. -/
def setPc (c : KvService n) (k : ℕ) (h : Handler n) (pc : HandlerPc) : KvService n :=
  { c with handlers := c.handlers.set k { h with pc := pc } }

/-- Handler number `k` returns. -/
def reply (c : KvService n) (k : ℕ) (h : Handler n) (r : Reply) : KvService n :=
  { c.setPc k h .done with replies := c.replies ++ [(h.rpc, r)] }

/-- A client calls its Clerk: the loop begins with a new request number. -/
def invoked (c : KvService n) (client : ℕ) (input : KvInput) : KvService n :=
  let requestId := (c.clerks client).lastRequestId + 1
  { c.setClerk client { c.clerks client with loop := some ⟨input, requestId, none⟩ } with
    history := c.history ++ [.call (client, requestId) input] }

/-- The loop sends its request to the server that the Clerk takes for the leader. -/
def called (c : KvService n) (client : ℕ) (input : KvInput) (requestId : ℕ) : KvService n :=
  { c.setClerk client { c.clerks client with
      loop := some ⟨input, requestId, some c.calls.length⟩ } with
    calls := c.calls ++ [⟨(c.clerks client).leaderId, input.args client requestId⟩] }

/-- The loop goes on to the next server. -/
def retried (c : KvService n) (client : ℕ) (input : KvInput) (requestId : ℕ) : KvService n :=
  c.setClerk client { c.clerks client with
    leaderId := (c.clerks client).leaderId + 1, loop := some ⟨input, requestId, none⟩ }

/-- The loop ends, and the client gets its answer. -/
def returned (c : KvService n) (client requestId : ℕ) (output : Option String) : KvService n :=
  { c.setClerk client { c.clerks client with lastRequestId := requestId, loop := none } with
    history := c.history ++ [.ret (client, requestId) output] }

/-- The incarnation that a handler runs on. -/
def home (c : KvService n) (h : Handler n) : Incarnation :=
  c.servers (h.server, h.epoch)

/-- A critical section of a handler on its server. -/
def setHome (c : KvService n) (h : Handler n) (kv : KVServer) : KvService n :=
  c.setServer (h.server, h.epoch) { c.home h with kv := kv }

/-- One step of the service; `none` when the action is not enabled. -/
def step (c : KvService n) : KvAction n → Option (KvService n)
  | .invoke client input =>
      match (c.clerks client).loop with
      | some _ => none
      | none => some (c.invoked client input)
  | .call client =>
      match (c.clerks client).loop with
      | some ⟨input, requestId, none⟩ => some (c.called client input requestId)
      | _ => none
  | .callFails client =>
      match (c.clerks client).loop with
      | some ⟨input, requestId, some _⟩ => some (c.retried client input requestId)
      | _ => none
  | .callReturns client m =>
      match (c.clerks client).loop, c.replies[m]? with
      | some ⟨input, requestId, some call⟩, some (rpc, reply) =>
          if rpc ≠ call then none
          else if reply.isWrongLeader then some (c.retried client input requestId)
          else some (c.returned client requestId reply.output)
      | _, _ => none
  | .request m =>
      (c.calls[m]?).map fun rpc =>
        { c with handlers := c.handlers ++ [⟨m, rpc.server, c.epoch rpc.server, rpc.args, .start⟩] }
  | .start k index isLeader =>
      match c.handlers[k]? with
      | some ⟨rpc, server, epoch, args, .start⟩ =>
          let h : Handler n := ⟨rpc, server, epoch, args, .start⟩
          -- the operation may be agreed on later, whatever `Start` returns
          let c := { c with starts := c.starts ++ [args.op] }
          if isLeader then some (c.setPc k h (.register index))
          else some (c.reply k h args.wrongLeader)
      | _ => none
  | .register k =>
      match c.handlers[k]? with
      | some ⟨rpc, server, epoch, args, .register index⟩ =>
          let h : Handler n := ⟨rpc, server, epoch, args, .register index⟩
          let (kv, ch) := (c.home h).kv.register index
          some ((c.setHome h kv).setPc k h (.wait index ch))
      | _ => none
  | .receive k =>
      match c.handlers[k]? with
      | some ⟨rpc, server, epoch, args, .wait index ch⟩ =>
          let h : Handler n := ⟨rpc, server, epoch, args, .wait index ch⟩
          ((c.home h).kv.receive ch).map fun (kv, notification) =>
            (c.setHome h kv).setPc k h (.notified index notification)
      | _ => none
  | .timeout k =>
      match c.handlers[k]? with
      | some ⟨rpc, server, epoch, args, .wait index ch⟩ =>
          some (c.reply k ⟨rpc, server, epoch, args, .wait index ch⟩ args.wrongLeader)
      | _ => none
  | .unregister k =>
      match c.handlers[k]? with
      | some ⟨rpc, server, epoch, args, .notified index notification⟩ =>
          let h : Handler n := ⟨rpc, server, epoch, args, .notified index notification⟩
          let c := c.setHome h ((c.home h).kv.unregister index)
          -- another operation was agreed on at this index
          if notification.clientId ≠ args.op.clientId ∨
              notification.requestId ≠ args.op.requestId then
            some (c.reply k h args.wrongLeader)
          else
            match args with
            | .get _ => some (c.setPc k h .read)
            | .putAppend _ => some (c.reply k h (.putAppend { wrongLeader := false }))
      | _ => none
  | .read k =>
      match c.handlers[k]? with
      | some ⟨rpc, server, epoch, .get args, .read⟩ =>
          let h : Handler n := ⟨rpc, server, epoch, .get args, .read⟩
          -- the map may have moved on since the notification
          match (c.home h).kv.db args.key with
          | some value => some (c.reply k h (.get { wrongLeader := false, value := value }))
          | none => some (c.reply k h (.get { wrongLeader := false, err := .errNoKey }))
      | _ => none
  | .agree k =>
      (c.starts[k]?).map fun op =>
        { c with starts := c.starts.eraseIdx k, agreed := c.agreed ++ [op] }
  | .apply server epoch =>
      let x := c.servers (server, epoch)
      -- an incarnation that has not begun takes nothing; an old one may still run
      if c.epoch server < epoch then none
      else
        match x.kv.sending, c.agreed[x.received]? with
        | none, some op => some (c.setServer (server, epoch)
            ⟨x.kv.applyMsg ⟨true, op, x.received + 1⟩, x.received + 1⟩)
        | _, _ => none
  | .notify server epoch =>
      let x := c.servers (server, epoch)
      x.kv.notify.map fun kv => c.setServer (server, epoch) { x with kv := kv }
  | .restart server =>
      some { c with epoch := Function.update c.epoch server (c.epoch server + 1) }

end KvService

/-- The service with `n + 1` servers as a transition system. -/
def kvSystem (n : ℕ) : TransitionSystem (KvService n) (KvAction n) :=
  ⟨KvService.init n, KvService.step⟩

/-! ## The object that the service is meant to be -/

/-- A map from keys to strings; a key that was never written reads as the empty
string. -/
def kvSpec : SeqSpec (String → String) KvInput (Option String) where
  init := fun _ => ""
  step := fun m input output =>
    match input, output with
    | .get key, some value => if value = m key then some m else none
    | .put key value, none => some (Function.update m key value)
    | .append key value, none => some (Function.update m key (m key ++ value))
    | _, _ => none

end Mit6824
