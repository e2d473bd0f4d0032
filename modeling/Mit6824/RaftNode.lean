/-
# One Raft server

The in-memory state of a server (`raft.Raft`), what its persister holds, and
each of its critical sections as a pure function, translated from
`raft/raft.go`, `raft/raft_leader_election.go`, `raft/raft_log_replication.go`
and `raft/raft_snapshot.go`.

Conventions of the translation:

* the peers are `Fin n` and `rf.me` is the type index `me`, so a server that
  sits at the wrong index cannot be built;
* `interface{}` commands are a type `C` whose `default` is Go's `nil`;
* `votedFor = -1` is `none`; terms and indices are natural numbers, and an
  index that would be negative or past the end is a panic;
* a goroutine is a record of what it still has to do: `elections` (the calls of
  `startElection`), `heartbeats` and `appends` (the two halves of the body of
  `broadcastHeartbeat`), `starts` (a `Start` between its two critical sections)
  and `appliers` (the loop of `setCommitIndex`);
* `epoch` numbers the incarnations of the server: replies to the goroutines of
  a crashed incarnation find nobody waiting;
* timers only decide when a step happens, so they are not part of the state.
-/
import Mathlib.Data.List.FinRange
import Mathlib.Logic.Function.Basic
import Mathlib.Tactic

namespace Mit6824

/-! ## Data -/

/-- `raft.NodeState`. -/
inductive NodeState where
  | follower
  | candidate
  | leader
  deriving DecidableEq, Repr

/-- `raft.LogEntry`. -/
structure LogEntry (C : Type) where
  command : C
  term : ℕ
  deriving DecidableEq, Repr

/-- The zero value of a `LogEntry`, which `make([]LogEntry, 1)` puts at index `0`. -/
instance {C : Type} [Inhabited C] : Inhabited (LogEntry C) := ⟨⟨default, 0⟩⟩

/-- `raft.RequestVoteArgs`. -/
structure RequestVoteArgs (n : ℕ) where
  term : ℕ
  candidateId : Fin n
  lastLogIndex : ℕ
  lastLogTerm : ℕ
  deriving DecidableEq, Repr

/-- `raft.RequestVoteReply`. -/
structure RequestVoteReply where
  term : ℕ
  voteGranted : Bool
  deriving DecidableEq, Repr

/-- `raft.AppendEntriesArgs`. -/
structure AppendEntriesArgs (n : ℕ) (C : Type) where
  term : ℕ
  leaderId : Fin n
  prevLogIndex : ℕ
  prevLogTerm : ℕ
  entries : List (LogEntry C)
  leaderCommit : ℕ
  deriving DecidableEq, Repr

/-- `raft.AppendEntriesReply`; a field the handler does not write keeps its zero
value. -/
structure AppendEntriesReply where
  term : ℕ := 0
  success : Bool := false
  conflictTerm : ℤ := 0
  conflictIndex : ℕ := 0
  deriving DecidableEq, Repr

/-- `raft.ApplyMsg`. -/
structure ApplyMsg (C : Type) where
  commandValid : Bool
  command : C
  commandIndex : ℕ
  deriving DecidableEq, Repr

/-- What `persist` encodes and `readPersist` decodes. -/
structure Persisted (n : ℕ) (C : Type) where
  currentTerm : ℕ
  votedFor : Option (Fin n)
  logs : List (LogEntry C)

/-- One round of `startElection`: the arguments and the `voteCount` its
goroutines share, and the peers whose goroutine is still inside `Call`. -/
structure Election (n : ℕ) where
  args : RequestVoteArgs n
  voteCount : ℕ
  waiting : List (Fin n)
  deriving DecidableEq, Repr

/-- One goroutine of `broadcastHeartbeat` that has sent its request. -/
structure AppendCall (n : ℕ) (C : Type) where
  server : Fin n
  args : AppendEntriesArgs n C
  waiting : Bool

/-- A `Start` that has read the term and found itself leader, and has not
appended yet. -/
structure PendingStart (C : Type) where
  command : C
  term : ℕ

/-- One goroutine of `setCommitIndex`: it is about to send entry `idx` of its
slice or, when `sent`, to store that index into `lastApplied`. -/
structure Applier (C : Type) where
  startIdx : ℕ
  entries : List (LogEntry C)
  idx : ℕ
  sent : Bool

/-- The message an apply goroutine is about to send. -/
def Applier.msg? {C : Type} (g : Applier C) : Option (ApplyMsg C) :=
  if g.sent then none
  else (g.entries[g.idx]?).map fun entry => ⟨true, entry.command, g.startIdx + g.idx⟩

/-- A goroutine that has sent and stored its whole slice. -/
def Applier.Finished {C : Type} (g : Applier C) : Prop :=
  g.entries.length ≤ g.idx

instance {C : Type} (g : Applier C) : Decidable g.Finished :=
  inferInstanceAs (Decidable (_ ≤ _))

/-- Messages on the network.  A request and its reply carry the goroutine that
made the call: the caller, its incarnation, and the number of the election
round or of the append call. -/
inductive Msg (n : ℕ) (C : Type) where
  | requestVote (src : Fin n) (epoch round : ℕ) (dst : Fin n) (args : RequestVoteArgs n)
  | requestVoteReply (src : Fin n) (epoch round : ℕ) (dst : Fin n) (reply : RequestVoteReply)
  | appendEntries (src : Fin n) (epoch call : ℕ) (dst : Fin n) (args : AppendEntriesArgs n C)
  | appendEntriesReply (src : Fin n) (epoch call : ℕ) (dst : Fin n) (reply : AppendEntriesReply)
  deriving DecidableEq

/-- `raft.Raft`, for the server with index `me`. -/
structure Raft {n : ℕ} (C : Type) (me : Fin n) where
  epoch : ℕ
  persister : Option (Persisted n C)
  currentTerm : ℕ
  votedFor : Option (Fin n)
  state : NodeState
  logs : List (LogEntry C)
  commitIndex : ℕ
  lastApplied : ℕ
  nextIndex : Fin n → ℕ
  matchIndex : Fin n → ℕ
  elections : List (Election n)
  heartbeats : List (Fin n)
  appends : List (AppendCall n C)
  starts : List (PendingStart C)
  appliers : List (Applier C)

/-- The result of a critical section or, when the code panics, the server at
the moment of the panic (after its deferred calls have run). -/
abbrev Section {n : ℕ} (C : Type) (me : Fin n) (α : Type) := Except (Raft C me) α

namespace Raft

variable {n : ℕ} {C : Type} {me : Fin n}

/-! ## Persistence and start-up -/

/-- `Raft.persist`. -/
def persist (rf : Raft C me) : Raft C me :=
  { rf with persister := some ⟨rf.currentTerm, rf.votedFor, rf.logs⟩ }

/-- `Raft.readPersist`: an empty persister leaves the server as it is. -/
def readPersist (rf : Raft C me) (data : Option (Persisted n C)) : Raft C me :=
  match data with
  | none => rf
  | some d => { rf with currentTerm := d.currentTerm, votedFor := d.votedFor, logs := d.logs }

/-- `Make`: a follower with the zero entry, then whatever the persister holds. -/
def make [Inhabited C] (epoch : ℕ) (persister : Option (Persisted n C)) : Raft C me :=
  readPersist
    { epoch := epoch
      persister := persister
      currentTerm := 0
      votedFor := none
      state := .follower
      logs := [default]
      commitIndex := 0
      lastApplied := 0
      nextIndex := fun _ => 1
      matchIndex := fun _ => 0
      elections := []
      heartbeats := []
      appends := []
      starts := []
      appliers := [] } persister

/-- A crash followed by a restart: `Make` on the persister of the old
incarnation.  A server that stays down is one that takes no further step. -/
def restart [Inhabited C] (rf : Raft C me) : Raft C me :=
  make (rf.epoch + 1) rf.persister

/-- `Raft.GetState`. -/
def getState (rf : Raft C me) : ℕ × Bool :=
  (rf.currentTerm, rf.state = .leader)

/-! ## Leader election -/

/-- The peers other than `me`, in the order of `range rf.peers`. -/
def others (me : Fin n) : List (Fin n) :=
  (List.finRange n).filter (· ≠ me)

/-- `Raft.broadcastHeartbeat`: one goroutine for every other peer. -/
def broadcastHeartbeat (rf : Raft C me) : Raft C me :=
  { rf with heartbeats := rf.heartbeats ++ others me }

/-- `Raft.startElection`.  The requests are handed to the network; the vote
count starts with the server's own vote. -/
def startElection (rf : Raft C me) : Section C me (Raft C me × List (Msg n C)) :=
  let rf := { rf with currentTerm := rf.currentTerm + 1 }
  let lastLogIndex := rf.logs.length - 1
  match rf.logs[lastLogIndex]? with
  -- the index expression panics; the deferred `persist` still runs, with the new term
  | none => .error rf.persist
  | some last =>
      let args : RequestVoteArgs n := ⟨rf.currentTerm, me, lastLogIndex, last.term⟩
      let voted : Raft C me := { rf with
        votedFor := some me
        elections := rf.elections ++ [⟨args, 1, others me⟩] }
      .ok (voted.persist, (others me).map fun server =>
        .requestVote me rf.epoch rf.elections.length server args)

/-- `convertTo(Follower)`. -/
def convertToFollower (rf : Raft C me) : Raft C me :=
  if rf.state = .follower then rf
  else { rf with state := .follower, votedFor := none }

/-- `convertTo(Candidate)`. -/
def convertToCandidate (rf : Raft C me) : Section C me (Raft C me × List (Msg n C)) :=
  if rf.state = .candidate then .ok (rf, [])
  else { rf with state := .candidate }.startElection

/-- `convertTo(Leader)`. -/
def convertToLeader (rf : Raft C me) : Raft C me :=
  if rf.state = .leader then rf
  else { rf with
    state := .leader
    nextIndex := fun _ => rf.logs.length
    matchIndex := fun _ => 0 }.broadcastHeartbeat

/-- The `electionTimer` case of the loop in `Make`. -/
def electionTimeout (rf : Raft C me) : Section C me (Raft C me × List (Msg n C)) :=
  if rf.state = .follower then rf.convertToCandidate else rf.startElection

/-- The `heartbeatTimer` case of the loop in `Make`. -/
def heartbeatTimeout (rf : Raft C me) : Raft C me :=
  if rf.state = .leader then rf.broadcastHeartbeat else rf

/-- The first test of `RequestVote`: the request is of an old term, or the vote
of this term is taken. -/
def refusesVote (rf : Raft C me) (args : RequestVoteArgs n) : Prop :=
  args.term < rf.currentTerm ∨
    (args.term = rf.currentTerm ∧ rf.votedFor ≠ none ∧ rf.votedFor ≠ some args.candidateId)

instance (rf : Raft C me) (args : RequestVoteArgs n) : Decidable (rf.refusesVote args) :=
  inferInstanceAs (Decidable (_ ∨ _))

/-- `rf.currentTerm = term; rf.convertTo(Follower)` under the test that `term`
is newer. -/
def observeTerm (rf : Raft C me) (term : ℕ) : Raft C me :=
  if rf.currentTerm < term then { rf with currentTerm := term }.convertToFollower else rf

/-- `Raft.RequestVote`. -/
def requestVote (rf : Raft C me) (args : RequestVoteArgs n) :
    Section C me (Raft C me × RequestVoteReply) :=
  if rf.refusesVote args then .ok (rf.persist, ⟨rf.currentTerm, false⟩)
  else
    let rf := rf.observeTerm args.term
    -- the vote of the old term stays when the server was a follower
    let lastLogIndex := rf.logs.length - 1
    match rf.logs[lastLogIndex]? with
    | none => .error rf.persist
    | some last =>
        if args.lastLogTerm < last.term ∨
            (args.lastLogTerm = last.term ∧ args.lastLogIndex < lastLogIndex) then
          .ok (rf.persist, ⟨rf.currentTerm, false⟩)
        else
          .ok ({ rf with votedFor := some args.candidateId }.persist, ⟨rf.currentTerm, true⟩)

/-- The end of a goroutine of `startElection`: the reply of `server` to the
round has arrived. -/
def voteReply (rf : Raft C me) (round : ℕ) (server : Fin n) (reply : RequestVoteReply) :
    Raft C me :=
  let rf := { rf with elections := rf.elections.modify round fun e =>
    { e with waiting := e.waiting.filter (· ≠ server) } }
  if reply.voteGranted ∧ rf.state = .candidate then
    -- the round may be of an older term than the candidacy: nothing compares them
    let rf := { rf with elections := rf.elections.modify round fun e =>
      { e with voteCount := e.voteCount + 1 } }
    if n / 2 < (rf.elections[round]?).elim 0 Election.voteCount then rf.convertToLeader else rf
  else if rf.currentTerm < reply.term then
    ({ rf with currentTerm := reply.term }.convertToFollower).persist
  else rf

/-! ## Log replication -/

/-- `Raft.setCommitIndex`: the goroutine it spawns gets a copy of the slice
`rf.logs[rf.lastApplied+1 : rf.commitIndex+1]`. -/
def setCommitIndex (rf : Raft C me) (commitIndex : ℕ) : Section C me (Raft C me) :=
  let rf := { rf with commitIndex := commitIndex }
  -- `lastApplied` moves only when a goroutine stores it, so slices may overlap
  if rf.lastApplied < commitIndex then
    if rf.logs.length < commitIndex + 1 then .error rf
    else
      let entriesToApply := (rf.logs.take (commitIndex + 1)).drop (rf.lastApplied + 1)
      .ok { rf with appliers := rf.appliers ++ [⟨rf.lastApplied + 1, entriesToApply, 0, false⟩] }
  else .ok rf

/-- The backward loop of `AppendEntries` on `conflictIndex`; `none` when it runs
into `rf.logs[-1]`. -/
def conflictScan (logs : List (LogEntry C)) (conflictTerm : ℕ) : ℕ → Option ℕ
  | 0 => none
  | i + 1 =>
      match logs[i]? with
      | none => none
      | some e => if e.term = conflictTerm then conflictScan logs conflictTerm i else some (i + 1)

/-- The loop of `AppendEntries` that looks for `unmatch_idx`: the first entry
that is past the end of the log or differs in its term. -/
def unmatchIdx (logs : List (LogEntry C)) (start : ℕ) : ℕ → List (LogEntry C) → Option ℕ
  | _, [] => none
  | idx, e :: entries =>
      if (logs[start + idx]?).map LogEntry.term = some e.term
      then unmatchIdx logs start (idx + 1) entries
      else some idx

/-- The log after an accepted request: cut at the first unmatched entry and
extended by the rest of the request. -/
def mergeLogs (logs : List (LogEntry C)) (args : AppendEntriesArgs n C) : List (LogEntry C) :=
  match unmatchIdx logs (args.prevLogIndex + 1) 0 args.entries with
  | none => logs
  | some u => logs.take (args.prevLogIndex + 1 + u) ++ args.entries.drop u

/-- The last part of `AppendEntries`: follow the leader's commit index. -/
def followCommit (rf : Raft C me) (leaderCommit : ℕ) : Section C me (Raft C me) :=
  if rf.commitIndex < leaderCommit then
    let lastLogIndex := rf.logs.length - 1
    if leaderCommit ≤ lastLogIndex then rf.setCommitIndex leaderCommit
    else rf.setCommitIndex lastLogIndex
  else .ok rf

/-- `Raft.AppendEntries`.  Reading past the end of the log is the test
`absoluteLastLogIndex < args.PrevLogIndex`. -/
def appendEntries (rf : Raft C me) (args : AppendEntriesArgs n C) :
    Section C me (Raft C me × AppendEntriesReply) :=
  if args.term < rf.currentTerm then .ok (rf.persist, { term := rf.currentTerm })
  else
    let rf := rf.observeTerm args.term
    match rf.logs[args.prevLogIndex]? with
    | none =>
        -- the log is too short: the leader is asked to continue at its end
        .ok (rf.persist,
          { term := rf.currentTerm, conflictTerm := -1, conflictIndex := rf.logs.length })
    | some prev =>
        if prev.term ≠ args.prevLogTerm then
          match conflictScan rf.logs prev.term args.prevLogIndex with
          | none => .error rf.persist
          | some i =>
              .ok (rf.persist,
                { term := rf.currentTerm, conflictTerm := prev.term, conflictIndex := i })
        else
          let merged : Raft C me := { rf with logs := mergeLogs rf.logs args }
          match merged.followCommit args.leaderCommit with
          | .error rf => .error rf.persist
          -- the term of a successful reply is not set
          | .ok rf => .ok (rf.persist, { success := true })

/-- Goroutine `k` of `broadcastHeartbeat` gets the lock. -/
def heartbeatDone (rf : Raft C me) (k : ℕ) : Raft C me :=
  { rf with heartbeats := rf.heartbeats.eraseIdx k }

/-- The request that puts the entries after `prevLogIndex` into a message. -/
def appendArgs (rf : Raft C me) (prevLogIndex : ℕ) (prev : LogEntry C) : AppendEntriesArgs n C :=
  { term := rf.currentTerm
    leaderId := me
    prevLogIndex := prevLogIndex
    prevLogTerm := prev.term
    entries := rf.logs.drop (prevLogIndex + 1)
    leaderCommit := rf.commitIndex }

/-- A goroutine of `broadcastHeartbeat` enters `Call`. -/
def called (rf : Raft C me) (server : Fin n) (args : AppendEntriesArgs n C) : Raft C me :=
  { rf with appends := rf.appends ++ [⟨server, args, true⟩] }

/-- The first half of a goroutine of `broadcastHeartbeat`: build and send the
request.  It panics when `nextIndex` is `0` or past the end of the log. -/
def heartbeatRequest (rf : Raft C me) (server : Fin n) :
    Section C me (Raft C me × List (Msg n C)) :=
  if rf.state ≠ .leader then .ok (rf, [])
  else
    match rf.nextIndex server with
    | 0 => .error rf
    | prevLogIndex + 1 =>
        match rf.logs[prevLogIndex]? with
        | none => .error rf
        | some prev =>
            let args := rf.appendArgs prevLogIndex prev
            .ok (rf.called server args,
              [.appendEntries me rf.epoch rf.appends.length server args])

/-- How many peers have `matchIndex` at least `i`. -/
def matchCount (rf : Raft C me) (i : ℕ) : ℕ :=
  (List.finRange n).countP fun p => i ≤ rf.matchIndex p

/-- The counting loop: from `i` down to `rf.commitIndex + 1`, the first index
stored by more than half of the peers. -/
def commitScan (rf : Raft C me) : ℕ → Option ℕ
  | 0 => none
  | i + 1 =>
      if i + 1 ≤ rf.commitIndex then none
      else if n / 2 < rf.matchCount (i + 1) then some (i + 1)
      else rf.commitScan i

/-- The backward search of the leader for an entry of `conflictTerm`: `none`
when it reads past the end of the log, `some none` when there is no such entry. -/
def conflictSearch (logs : List (LogEntry C)) (conflictTerm : ℤ) : ℕ → Option (Option ℕ)
  | 0 => some none
  | i + 1 =>
      match logs[i]? with
      | none => none
      | some e => if (e.term : ℤ) = conflictTerm then some (some (i + 1))
          else conflictSearch logs conflictTerm i

/-- The goroutine of append call `k` returns from `Call`. -/
def callDone (rf : Raft C me) (k : ℕ) (call : AppendCall n C) : Raft C me :=
  { rf with appends := rf.appends.set k { call with waiting := false } }

/-- A successful reply: record what the follower stores, then run the counting
loop. -/
def recordMatch (rf : Raft C me) (server : Fin n) (args : AppendEntriesArgs n C) : Raft C me :=
  let matched := args.prevLogIndex + args.entries.length
  { rf with
    matchIndex := Function.update rf.matchIndex server matched
    nextIndex := Function.update rf.nextIndex server (matched + 1) }

/-- The second half of a goroutine of `broadcastHeartbeat`: the reply of
`server` to the request `args` has arrived. -/
def appendReply (rf : Raft C me) (server : Fin n) (args : AppendEntriesArgs n C)
    (reply : AppendEntriesReply) : Section C me (Raft C me) :=
  if reply.success then
    let rf := rf.recordMatch server args
    -- the terms of the entries that are counted do not matter
    match rf.commitScan (rf.logs.length - 1) with
    | none => .ok rf
    | some i => rf.setCommitIndex i
  else if rf.currentTerm < reply.term then
    .ok ({ rf with currentTerm := reply.term }.convertToFollower).persist
  else
    let rf := { rf with nextIndex := Function.update rf.nextIndex server reply.conflictIndex }
    if reply.conflictTerm = -1 then .ok rf
    else
      match conflictSearch rf.logs reply.conflictTerm args.prevLogIndex with
      | none => .error rf
      | some none => .ok rf
      | some (some i) => .ok { rf with nextIndex := Function.update rf.nextIndex server i }

/-! ## `Start` and the apply goroutines -/

/-- The first critical section of `Start`: read `GetState`, and go on when it
says leader. -/
def startRead (rf : Raft C me) (command : C) : Raft C me :=
  if rf.getState.2 then { rf with starts := rf.starts ++ [⟨command, rf.getState.1⟩] } else rf

/-- The pending `Start` number `k` gets the lock. -/
def startDone (rf : Raft C me) (k : ℕ) : Raft C me :=
  { rf with starts := rf.starts.eraseIdx k }

/-- The second critical section of `Start`: append with the term read before;
the result is the index that `Start` returns. -/
def startAppend (rf : Raft C me) (p : PendingStart C) : Raft C me × ℕ :=
  let index := rf.logs.length
  -- the state is not read again: the server may have lost its leadership
  let appended : Raft C me := { rf with
    logs := rf.logs ++ [⟨p.command, p.term⟩]
    matchIndex := Function.update rf.matchIndex me index
    nextIndex := Function.update rf.nextIndex me (index + 1) }
  (appended.persist, index)

/-- Goroutine `k` sends on `applyCh`. -/
def applySend (rf : Raft C me) (k : ℕ) : Raft C me :=
  { rf with appliers := rf.appliers.modify k fun g => { g with sent := true } }

/-- Goroutine `k` takes the lock again and stores `rf.lastApplied`. -/
def applyStore (rf : Raft C me) (k : ℕ) (g : Applier C) : Raft C me :=
  { rf with
    lastApplied := g.startIdx + g.idx
    appliers := rf.appliers.modify k fun g => { g with idx := g.idx + 1, sent := false } }

end Raft

end Mit6824
