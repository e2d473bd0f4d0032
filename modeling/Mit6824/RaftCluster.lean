/-
# A cluster of Raft servers and its network

`n` servers, every message ever sent, and a history of what an observer of the
run can see: election rounds, granted votes and the messages on the apply
channels.  Each step is one critical section under `rf.mu` (or one send on an
apply channel), so any interleaving of the goroutines is a sequence of steps.

The network never forgets a message: a delivery may come at any later time, in
any order, never, or several times.  A reply, however, is handled only by the
goroutine that made the call, while that goroutine still waits for it — `Call`
returns once — and only in the incarnation that made the call.
-/
import Mit6824.TransitionSystem
import Mit6824.RaftNode

namespace Mit6824

/-- What an observer of the run sees.  A `ballot` is a `startElection` that
raised the server's term to `term`, with the vote for itself; `granted` is a
`RequestVote` reply with `VoteGranted = true`; `applied` is a message sent on
the server's `applyCh`. -/
inductive Event (n : ℕ) (C : Type) where
  | ballot (s : Fin n) (epoch round term : ℕ)
  | granted (voter : Fin n) (term : ℕ) (candidate : Fin n)
  | applied (s : Fin n) (epoch : ℕ) (msg : ApplyMsg C)
  deriving DecidableEq

/-- The steps of a cluster. -/
inductive Action (n : ℕ) (C : Type) where
  /-- The election timer of `s` has expired and the loop of `Make` handles it. -/
  | electionTimeout (s : Fin n)
  /-- The heartbeat timer of `s` has expired and the loop of `Make` handles it. -/
  | heartbeatTimeout (s : Fin n)
  /-- Goroutine `k` of `broadcastHeartbeat` on `s` takes the lock and sends. -/
  | sendHeartbeat (s : Fin n) (k : ℕ)
  /-- Message number `m` of the network reaches its receiver. -/
  | deliver (m : ℕ)
  /-- A call of `Start(command)` on `s` runs `GetState`. -/
  | startRead (s : Fin n) (command : C)
  /-- The pending `Start` number `k` on `s` appends its entry. -/
  | startAppend (s : Fin n) (k : ℕ)
  /-- Apply goroutine `k` of `s` sends its next message. -/
  | applySend (s : Fin n) (k : ℕ)
  /-- Apply goroutine `k` of `s` stores `lastApplied`. -/
  | applyStore (s : Fin n) (k : ℕ)
  /-- Server `s` crashes and is started again on its persister. -/
  | crash (s : Fin n)
  deriving DecidableEq

namespace Action

variable {n : ℕ} {C : Type}

/-- The server whose election timer the step handles. -/
def electionTimeout? : Action n C → Option (Fin n)
  | .electionTimeout s => some s
  | _ => none

/-- The message that the step delivers. -/
def deliver? : Action n C → Option ℕ
  | .deliver m => some m
  | _ => none

/-- The server and the pending `Start` whose entry the step appends. -/
def startAppend? : Action n C → Option (Fin n × ℕ)
  | .startAppend s k => some (s, k)
  | _ => none

end Action

/-- The state of a cluster. -/
structure Cluster (n : ℕ) (C : Type) where
  nodes : (s : Fin n) → Raft C s
  net : List (Msg n C)
  history : List (Event n C)

namespace Cluster

variable {n : ℕ} {C : Type}

/-- Server `s` moves to `rf`, sending `msgs`, and the observer notes `events`. -/
def put (c : Cluster n C) (s : Fin n) (rf : Raft C s) (msgs : List (Msg n C))
    (events : List (Event n C)) : Cluster n C :=
  ⟨Function.update c.nodes s rf, c.net ++ msgs, c.history ++ events⟩

/-! ## Conditions on a step -/

/-- If the step handles an election timer, then `P` holds of its server. -/
def TimesOut (P : Fin n → Prop) (a : Action n C) : Prop :=
  ∀ s ∈ a.electionTimeout?, P s

/-- If the step delivers a message, then `P` holds of it. -/
def Delivers (c : Cluster n C) (P : Msg n C → Prop) (a : Action n C) : Prop :=
  ∀ m ∈ a.deliver?, ∀ msg ∈ c.net[m]?, P msg

/-- If the step appends for a pending `Start`, then `P` holds of the server and of it. -/
def Appends (c : Cluster n C) (P : Fin n → PendingStart C → Prop) (a : Action n C) : Prop :=
  ∀ x ∈ a.startAppend?, ∀ p ∈ (c.nodes x.1).starts[x.2]?, P x.1 p

instance (P : Fin n → Prop) [DecidablePred P] (a : Action n C) : Decidable (TimesOut P a) :=
  inferInstanceAs (Decidable (∀ s ∈ a.electionTimeout?, P s))

instance (c : Cluster n C) (P : Msg n C → Prop) [DecidablePred P] (a : Action n C) :
    Decidable (c.Delivers P a) :=
  inferInstanceAs (Decidable (∀ m ∈ a.deliver?, ∀ msg ∈ c.net[m]?, P msg))

instance (c : Cluster n C) (P : Fin n → PendingStart C → Prop)
    [∀ s p, Decidable (P s p)] (a : Action n C) : Decidable (c.Appends P a) :=
  inferInstanceAs (Decidable (∀ x ∈ a.startAppend?, ∀ p ∈ (c.nodes x.1).starts[x.2]?, P x.1 p))

/-! ## The steps -/

variable [Inhabited C]

/-- All servers freshly made, on empty persisters. -/
def init (n : ℕ) (C : Type) [Inhabited C] : Cluster n C :=
  ⟨fun _ => Raft.make 0 none, [], []⟩

/-- The end of a critical section of `s`.  A panic takes the server down; it
comes back on what its persister holds. -/
def finish {α : Type} (c : Cluster n C) (s : Fin n) (r : Section C s α)
    (f : α → Raft C s × List (Msg n C) × List (Event n C)) : Cluster n C :=
  match r with
  | .error rf => c.put s rf.restart [] []
  | .ok a => c.put s (f a).1 (f a).2.1 (f a).2.2

/-- Delivery of one message. -/
def receive (c : Cluster n C) : Msg n C → Option (Cluster n C)
  | .requestVote src e k dst args =>
      some <| c.finish dst ((c.nodes dst).requestVote args) fun (rf, reply) =>
        (rf, [.requestVoteReply src e k dst reply],
          if reply.voteGranted then [.granted dst reply.term args.candidateId] else [])
  | .requestVoteReply src e k dst reply =>
      let rf := c.nodes src
      if e = rf.epoch ∧ dst ∈ (rf.elections[k]?).elim [] Election.waiting then
        some <| c.put src (rf.voteReply k dst reply) [] []
      else none
  | .appendEntries src e k dst args =>
      some <| c.finish dst ((c.nodes dst).appendEntries args) fun (rf, reply) =>
        (rf, [.appendEntriesReply src e k dst reply], [])
  | .appendEntriesReply src e k dst reply =>
      let rf := c.nodes src
      match rf.appends[k]? with
      | none => none
      | some call =>
          if e = rf.epoch ∧ dst = call.server ∧ call.waiting then
            some <| c.finish src ((rf.callDone k call).appendReply dst call.args reply)
              fun rf => (rf, [], [])
          else none

/-- One step of the cluster; `none` when the action is not enabled. -/
def step (c : Cluster n C) : Action n C → Option (Cluster n C)
  | .electionTimeout s =>
      let rf := c.nodes s
      some <| c.finish s rf.electionTimeout fun (rf', msgs) =>
        (rf', msgs, [.ballot s rf.epoch rf.elections.length (rf.currentTerm + 1)])
  | .heartbeatTimeout s => some <| c.put s (c.nodes s).heartbeatTimeout [] []
  | .sendHeartbeat s k =>
      let rf := c.nodes s
      match rf.heartbeats[k]? with
      | none => none
      | some server =>
          some <| c.finish s ((rf.heartbeatDone k).heartbeatRequest server)
            fun (rf, msgs) => (rf, msgs, [])
  | .deliver m => (c.net[m]?).bind c.receive
  | .startRead s command => some <| c.put s ((c.nodes s).startRead command) [] []
  | .startAppend s k =>
      let rf := c.nodes s
      match rf.starts[k]? with
      | none => none
      | some p =>
          some <| c.put s ((rf.startDone k).startAppend p).1 [] []
  | .applySend s k =>
      let rf := c.nodes s
      match (rf.appliers[k]?).bind Applier.msg? with
      | none => none
      | some msg => some <| c.put s (rf.applySend k) [] [.applied s rf.epoch msg]
  | .applyStore s k =>
      let rf := c.nodes s
      match rf.appliers[k]? with
      | none => none
      | some g => if g.sent then some <| c.put s (rf.applyStore k g) [] [] else none
  | .crash s => some <| c.put s (c.nodes s).restart [] []

/-! ## When a step is enabled -/

variable {c c' : Cluster n C}

/-- A vote reply is handled by the election that waits for it. -/
theorem receive_requestVoteReply {src dst : Fin n} {e k : ℕ} {reply : RequestVoteReply}
    (h : c.receive (.requestVoteReply src e k dst reply) = some c') :
    e = (c.nodes src).epoch ∧ ∃ round, (c.nodes src).elections[k]? = some round ∧
      dst ∈ round.waiting ∧ c.put src ((c.nodes src).voteReply k dst reply) [] [] = c' := by
  unfold receive at h
  dsimp only at h
  split_ifs at h with hw
  obtain ⟨hepoch, hmem⟩ := hw
  rcases hround : (c.nodes src).elections[k]? with _ | round
  · simp [hround] at hmem
  · rw [hround, Option.elim_some] at hmem
    exact ⟨hepoch, round, rfl, hmem, Option.some.inj h⟩

/-- An append reply is handled by the call that waits for it. -/
theorem receive_appendEntriesReply {src dst : Fin n} {e k : ℕ} {reply : AppendEntriesReply}
    (h : c.receive (.appendEntriesReply src e k dst reply) = some c') :
    e = (c.nodes src).epoch ∧ ∃ call, (c.nodes src).appends[k]? = some call ∧
      dst = call.server ∧
      c.finish src (((c.nodes src).callDone k call).appendReply dst call.args reply)
        (fun rf => (rf, [], [])) = c' := by
  unfold receive at h
  dsimp only at h
  rcases hcall : (c.nodes src).appends[k]? with _ | call
  · simp [hcall] at h
  · rw [hcall] at h
    dsimp only at h
    split_ifs at h with hw
    exact ⟨hw.1, call, rfl, hw.2.1, Option.some.inj h⟩

/-- The goroutine of a heartbeat builds its request in one critical section. -/
theorem step_sendHeartbeat {s : Fin n} {k : ℕ} (h : c.step (.sendHeartbeat s k) = some c') :
    ∃ server, (c.nodes s).heartbeats[k]? = some server ∧
      c.finish s (((c.nodes s).heartbeatDone k).heartbeatRequest server)
        (fun (rf, msgs) => (rf, msgs, [])) = c' := by
  unfold step at h
  dsimp only at h
  rcases hk : (c.nodes s).heartbeats[k]? with _ | server
  · simp [hk] at h
  · rw [hk] at h
    exact ⟨server, rfl, Option.some.inj h⟩

/-- A message is handled by the server that it is for. -/
theorem step_deliver {m : ℕ} (h : c.step (.deliver m) = some c') :
    ∃ msg, c.net[m]? = some msg ∧ c.receive msg = some c' :=
  Option.bind_eq_some_iff.mp h

/-- `Start` appends in its second critical section. -/
theorem step_startAppend {s : Fin n} {k : ℕ} (h : c.step (.startAppend s k) = some c') :
    ∃ p, (c.nodes s).starts[k]? = some p ∧
      c.put s (((c.nodes s).startDone k).startAppend p).1 [] [] = c' := by
  unfold step at h
  dsimp only at h
  rcases hk : (c.nodes s).starts[k]? with _ | p
  · simp [hk] at h
  · rw [hk] at h
    exact ⟨p, rfl, Option.some.inj h⟩

/-- An apply goroutine sends its message and stores the index in two steps. -/
theorem step_applySend {s : Fin n} {k : ℕ} (h : c.step (.applySend s k) = some c') :
    ∃ g msg, (c.nodes s).appliers[k]? = some g ∧ g.msg? = some msg ∧
      c.put s ((c.nodes s).applySend k) [] [.applied s (c.nodes s).epoch msg] = c' := by
  unfold step at h
  dsimp only at h
  rcases hk : (c.nodes s).appliers[k]? with _ | g
  · simp [hk] at h
  · rcases hmsg : g.msg? with _ | msg
    · simp [hk, hmsg] at h
    · simp only [hk, Option.bind_some, hmsg] at h
      exact ⟨g, msg, rfl, hmsg, Option.some.inj h⟩

theorem step_applyStore {s : Fin n} {k : ℕ} (h : c.step (.applyStore s k) = some c') :
    ∃ g, (c.nodes s).appliers[k]? = some g ∧ g.sent = true ∧
      c.put s ((c.nodes s).applyStore k g) [] [] = c' := by
  unfold step at h
  dsimp only at h
  rcases hk : (c.nodes s).appliers[k]? with _ | g
  · simp [hk] at h
  · simp only [hk] at h
    split_ifs at h with hsent
    exact ⟨g, rfl, hsent, Option.some.inj h⟩

end Cluster

/-- The cluster of `n` servers as a transition system. -/
def raftSystem (n : ℕ) (C : Type) [Inhabited C] : TransitionSystem (Cluster n C) (Action n C) :=
  ⟨Cluster.init n C, Cluster.step⟩

end Mit6824
