/-
# What one step of a cluster can do

`Move` lists, once and for all, the branches of the critical sections of
`RaftNode.lean` with the tests that lead into them and the server that comes
out; `step_move` is the inversion lemma that reduces every step to a move.
Everything the later modules know about the handlers they know from here:
first the effect of the helpers field by field, then the moves.

A panic is a move as well: the server goes through `restart` on what its
persister holds at that point.
-/
import Mit6824.RaftCluster

namespace Mit6824

/-- An election round with one more answer: the goroutine of `server` is done,
and its vote counts when `count` is `1`. -/
def Election.answered {n : ℕ} (e : Election n) (server : Fin n) (count : ℕ) : Election n :=
  ⟨e.args, e.voteCount + count, e.waiting.filter (· ≠ server)⟩

namespace Raft

variable {n : ℕ} {C : Type} {me : Fin n}

/-! ## Field lemmas -/

@[simp] theorem persist_epoch (rf : Raft C me) : rf.persist.epoch = rf.epoch := rfl
@[simp] theorem persist_currentTerm (rf : Raft C me) :
    rf.persist.currentTerm = rf.currentTerm := rfl
@[simp] theorem persist_votedFor (rf : Raft C me) : rf.persist.votedFor = rf.votedFor := rfl
@[simp] theorem persist_state (rf : Raft C me) : rf.persist.state = rf.state := rfl
@[simp] theorem persist_logs (rf : Raft C me) : rf.persist.logs = rf.logs := rfl
@[simp] theorem persist_commitIndex (rf : Raft C me) :
    rf.persist.commitIndex = rf.commitIndex := rfl
@[simp] theorem persist_lastApplied (rf : Raft C me) :
    rf.persist.lastApplied = rf.lastApplied := rfl
@[simp] theorem persist_matchIndex (rf : Raft C me) : rf.persist.matchIndex = rf.matchIndex := rfl
@[simp] theorem persist_elections (rf : Raft C me) : rf.persist.elections = rf.elections := rfl
@[simp] theorem persist_appends (rf : Raft C me) : rf.persist.appends = rf.appends := rfl
@[simp] theorem persist_starts (rf : Raft C me) : rf.persist.starts = rf.starts := rfl
@[simp] theorem persist_appliers (rf : Raft C me) : rf.persist.appliers = rf.appliers := rfl

/-- A server that observes a term does not fall behind it. -/
@[simp] theorem observeTerm_currentTerm (rf : Raft C me) (t : ℕ) :
    (rf.observeTerm t).currentTerm = max rf.currentTerm t := by
  unfold observeTerm convertToFollower
  split_ifs with h h'
  · exact (max_eq_right h.le).symm
  · exact (max_eq_right h.le).symm
  · exact (max_eq_left (not_lt.mp h)).symm

@[simp] theorem observeTerm_logs (rf : Raft C me) (t : ℕ) : (rf.observeTerm t).logs = rf.logs := by
  unfold observeTerm convertToFollower; split_ifs <;> rfl
@[simp] theorem observeTerm_epoch (rf : Raft C me) (t : ℕ) :
    (rf.observeTerm t).epoch = rf.epoch := by
  unfold observeTerm convertToFollower; split_ifs <;> rfl
@[simp] theorem observeTerm_elections (rf : Raft C me) (t : ℕ) :
    (rf.observeTerm t).elections = rf.elections := by
  unfold observeTerm convertToFollower; split_ifs <;> rfl
@[simp] theorem observeTerm_appends (rf : Raft C me) (t : ℕ) :
    (rf.observeTerm t).appends = rf.appends := by
  unfold observeTerm convertToFollower; split_ifs <;> rfl
@[simp] theorem observeTerm_starts (rf : Raft C me) (t : ℕ) :
    (rf.observeTerm t).starts = rf.starts := by
  unfold observeTerm convertToFollower; split_ifs <;> rfl
@[simp] theorem observeTerm_commitIndex (rf : Raft C me) (t : ℕ) :
    (rf.observeTerm t).commitIndex = rf.commitIndex := by
  unfold observeTerm convertToFollower; split_ifs <;> rfl
@[simp] theorem observeTerm_lastApplied (rf : Raft C me) (t : ℕ) :
    (rf.observeTerm t).lastApplied = rf.lastApplied := by
  unfold observeTerm convertToFollower; split_ifs <;> rfl
@[simp] theorem observeTerm_matchIndex (rf : Raft C me) (t : ℕ) :
    (rf.observeTerm t).matchIndex = rf.matchIndex := by
  unfold observeTerm convertToFollower; split_ifs <;> rfl
@[simp] theorem observeTerm_appliers (rf : Raft C me) (t : ℕ) :
    (rf.observeTerm t).appliers = rf.appliers := by
  unfold observeTerm convertToFollower; split_ifs <;> rfl

/-- Nothing happens when the term is not newer. -/
theorem observeTerm_of_le {rf : Raft C me} {t : ℕ} (h : t ≤ rf.currentTerm) :
    rf.observeTerm t = rf := by
  unfold observeTerm
  rw [if_neg (not_lt.mpr h)]

/-- A newer term makes a follower. -/
theorem observeTerm_state_of_lt {rf : Raft C me} {t : ℕ} (h : rf.currentTerm < t) :
    (rf.observeTerm t).state = .follower := by
  unfold observeTerm convertToFollower
  rw [if_pos h]
  split_ifs with hs
  · exact hs
  · rfl

/-- A server that is no follower after `observeTerm` has observed nothing new. -/
theorem observeTerm_of_state_ne {rf : Raft C me} {t : ℕ}
    (h : (rf.observeTerm t).state ≠ .follower) : t ≤ rf.currentTerm := by
  by_contra hlt
  exact h (observeTerm_state_of_lt (not_le.mp hlt))

/-! ## Commit -/

/-- The server after `setCommitIndex i`, when the slice is inside the log. -/
def committed (rf : Raft C me) (i : ℕ) : Raft C me :=
  { rf with
    commitIndex := i
    appliers := if rf.lastApplied < i then
        rf.appliers ++
          [⟨rf.lastApplied + 1, (rf.logs.take (i + 1)).drop (rf.lastApplied + 1), 0, false⟩]
      else rf.appliers }

/-- `setCommitIndex` stays inside the log when its argument is an index of the
log. -/
theorem setCommitIndex_eq {rf : Raft C me} {i : ℕ} (h : i < rf.logs.length) :
    rf.setCommitIndex i = .ok (rf.committed i) := by
  unfold setCommitIndex committed
  dsimp only
  split_ifs with h1 h2
  · omega
  · rfl
  · rfl

/-- The server after `followCommit`. -/
def followed (rf : Raft C me) (leaderCommit : ℕ) : Raft C me :=
  if rf.commitIndex < leaderCommit then rf.committed (min leaderCommit (rf.logs.length - 1))
  else rf

/-- `followCommit` never panics on a log with at least one entry. -/
theorem followCommit_eq {rf : Raft C me} {leaderCommit : ℕ} (h : rf.logs ≠ []) :
    rf.followCommit leaderCommit = .ok (rf.followed leaderCommit) := by
  have hlen : 0 < rf.logs.length := List.length_pos_of_ne_nil h
  unfold followCommit followed
  dsimp only
  split_ifs with h1 h2
  · rw [min_eq_left h2]
    exact setCommitIndex_eq (by omega)
  · rw [min_eq_right (by omega)]
    exact setCommitIndex_eq (by omega)
  · rfl

/-- The counting loop returns an index above `commitIndex`, at most the one it
starts from, and counted on more than half of the peers. -/
theorem commitScan_some {rf : Raft C me} {i j : ℕ} (h : rf.commitScan i = some j) :
    rf.commitIndex < j ∧ j ≤ i ∧ n / 2 < rf.matchCount j := by
  induction i with
  | zero => simp [commitScan] at h
  | succ i ih =>
      rw [commitScan] at h
      split_ifs at h with h1 h2
      · obtain rfl : i + 1 = j := by simpa using h
        exact ⟨by omega, le_rfl, h2⟩
      · obtain ⟨ha, hb, hc⟩ := ih h
        exact ⟨ha, by omega, hc⟩

/-- A heartbeat goroutine skips, panics or sends what `appendArgs` says. -/
theorem heartbeatRequest_cases (rf : Raft C me) (server : Fin n) :
    (rf.state ≠ .leader ∧ rf.heartbeatRequest server = .ok (rf, [])) ∨
    rf.heartbeatRequest server = .error rf ∨
    ∃ i prev, rf.state = .leader ∧ rf.logs[i]? = some prev ∧
      rf.heartbeatRequest server = .ok (rf.called server (rf.appendArgs i prev),
        [.appendEntries me rf.epoch rf.appends.length server (rf.appendArgs i prev)]) := by
  unfold heartbeatRequest
  by_cases hs : rf.state = .leader
  · rw [if_neg (by simpa using hs)]
    rcases rf.nextIndex server with _ | i
    · exact .inr (.inl rfl)
    · dsimp only
      rcases hprev : rf.logs[i]? with _ | prev
      · exact .inr (.inl rfl)
      · exact .inr (.inr ⟨i, prev, hs, hprev, rfl⟩)
  · rw [if_pos hs]
    exact .inl ⟨hs, rfl⟩

/-- The server after it has accepted an append request. -/
def accepted (rf : Raft C me) (args : AppendEntriesArgs n C) : Raft C me :=
  persist (followed { rf.observeTerm args.term with logs := mergeLogs rf.logs args }
    args.leaderCommit)

/-- A log that holds the previous entry is not emptied by a merge. -/
theorem mergeLogs_ne_nil {logs : List (LogEntry C)} {args : AppendEntriesArgs n C}
    {prev : LogEntry C} (hprev : logs[args.prevLogIndex]? = some prev) :
    mergeLogs logs args ≠ [] := by
  have hlen : 0 < logs.length := by
    obtain ⟨h, -⟩ := List.getElem?_eq_some_iff.mp hprev
    omega
  unfold mergeLogs
  split
  · exact List.ne_nil_of_length_pos hlen
  · intro hnil
    have := (List.append_eq_nil_iff.mp hnil).1
    rw [List.take_eq_nil_iff] at this
    rcases this with h | h
    · omega
    · exact List.ne_nil_of_length_pos hlen h

/-- A request whose previous entry matches is accepted, without a panic. -/
theorem appendEntries_eq {rf : Raft C me} {args : AppendEntriesArgs n C} {prev : LogEntry C}
    (hle : rf.currentTerm ≤ args.term) (hprev : rf.logs[args.prevLogIndex]? = some prev)
    (hterm : prev.term = args.prevLogTerm) :
    rf.appendEntries args = .ok (rf.accepted args, { success := true }) := by
  unfold appendEntries accepted
  rw [if_neg (not_lt.mpr hle)]
  dsimp only
  rw [observeTerm_logs, hprev]
  dsimp only
  rw [if_neg (by simpa using hterm), followCommit_eq (mergeLogs_ne_nil hprev)]

/-- A request of the current term or a newer one that does not fit: the log ends before the
previous entry, or the scan finds where the conflicting term starts, or it leaves the log and
the handler panics. -/
theorem appendEntries_mismatch_cases {rf : Raft C me} {args : AppendEntriesArgs n C}
    (hle : rf.currentTerm ≤ args.term)
    (hprev : ∀ prev, rf.logs[args.prevLogIndex]? = some prev → prev.term ≠ args.prevLogTerm) :
    (rf.logs.length ≤ args.prevLogIndex ∧ rf.appendEntries args
      = .ok ((rf.observeTerm args.term).persist, ⟨args.term, false, -1, rf.logs.length⟩)) ∨
    (∃ (prev : LogEntry C) (i : ℕ),
      conflictScan rf.logs prev.term args.prevLogIndex = some i ∧ rf.appendEntries args
        = .ok ((rf.observeTerm args.term).persist, ⟨args.term, false, prev.term, i⟩)) ∨
    rf.appendEntries args = .error (rf.observeTerm args.term).persist := by
  unfold appendEntries
  rw [if_neg (not_lt.mpr hle)]
  dsimp only
  rw [observeTerm_logs, observeTerm_currentTerm, max_eq_right hle]
  rcases hp : rf.logs[args.prevLogIndex]? with _ | prev
  · exact .inl ⟨List.getElem?_eq_none_iff.mp hp, rfl⟩
  · dsimp only
    rw [if_pos (hprev prev hp)]
    rcases hscan : conflictScan rf.logs prev.term args.prevLogIndex with _ | i
    · exact .inr (.inr rfl)
    · exact .inr (.inl ⟨prev, i, hscan, rfl⟩)

/-- A request of the current term or a newer one that is not accepted changes
nothing but the term, whether it is answered or the handler panics. -/
theorem appendEntries_of_mismatch {rf : Raft C me} {args : AppendEntriesArgs n C}
    (hle : rf.currentTerm ≤ args.term)
    (hprev : ∀ prev, rf.logs[args.prevLogIndex]? = some prev → prev.term ≠ args.prevLogTerm) :
    (∃ reply : AppendEntriesReply, reply.success = false ∧ reply.term = args.term ∧
      rf.appendEntries args = .ok ((rf.observeTerm args.term).persist, reply)) ∨
    rf.appendEntries args = .error (rf.observeTerm args.term).persist := by
  rcases appendEntries_mismatch_cases hle hprev with ⟨-, heq⟩ | ⟨prev, i, -, heq⟩ | heq
  · exact .inl ⟨_, rfl, rfl, heq⟩
  · exact .inl ⟨_, rfl, rfl, heq⟩
  · exact .inr heq

/-- The server after a successful append reply. -/
def matched (rf : Raft C me) (server : Fin n) (args : AppendEntriesArgs n C) : Raft C me :=
  match (rf.recordMatch server args).commitScan (rf.logs.length - 1) with
  | none => rf.recordMatch server args
  | some i => (rf.recordMatch server args).committed i

/-- A successful append reply never panics. -/
theorem appendReply_of_success {rf : Raft C me} {server : Fin n} {args : AppendEntriesArgs n C}
    {reply : AppendEntriesReply} (h : reply.success = true) :
    rf.appendReply server args reply = .ok (rf.matched server args) := by
  unfold appendReply matched
  rw [if_pos h]
  have hlogs : (rf.recordMatch server args).logs = rf.logs := rfl
  simp only [hlogs]
  rcases hscan : (rf.recordMatch server args).commitScan (rf.logs.length - 1) with _ | i
  · rfl
  · obtain ⟨h1, h2, -⟩ := commitScan_some hscan
    exact setCommitIndex_eq (by rw [hlogs]; omega)

/-- An append reply of a newer term. -/
theorem appendReply_of_higher (rf : Raft C me) {server : Fin n} {args : AppendEntriesArgs n C}
    {reply : AppendEntriesReply} (h : reply.success = false) (hterm : rf.currentTerm < reply.term) :
    rf.appendReply server args reply = .ok (rf.observeTerm reply.term).persist := by
  unfold appendReply observeTerm
  rw [if_neg (by simp [h]), if_pos hterm, if_pos hterm]

/-- An unsuccessful append reply of an old term only moves `nextIndex`, whether
or not the search leaves the log. -/
theorem appendReply_of_failure (rf : Raft C me) (server : Fin n) (args : AppendEntriesArgs n C)
    {reply : AppendEntriesReply} (h : reply.success = false)
    (hterm : ¬ rf.currentTerm < reply.term) :
    ∃ next, rf.appendReply server args reply = .ok { rf with nextIndex := next } ∨
      rf.appendReply server args reply = .error { rf with nextIndex := next } := by
  unfold appendReply
  rw [if_neg (by simp [h]), if_neg hterm]
  dsimp only
  split_ifs
  · exact ⟨_, .inl rfl⟩
  · split
    · exact ⟨_, .inr rfl⟩
    · exact ⟨_, .inl rfl⟩
    · exact ⟨_, .inl rfl⟩

/-! ## Shapes

Which fields a helper can touch at all; with the shape rewritten, every other
field is unchanged by computation. -/

theorem heartbeatTimeout_shape (rf : Raft C me) :
    ∃ hb, rf.heartbeatTimeout = { rf with heartbeats := hb } := by
  unfold heartbeatTimeout broadcastHeartbeat
  split_ifs
  · exact ⟨_, rfl⟩
  · exact ⟨_, rfl⟩

theorem startRead_shape (rf : Raft C me) (command : C) :
    ∃ st, rf.startRead command = { rf with starts := st } := by
  unfold startRead
  split_ifs
  · exact ⟨_, rfl⟩
  · exact ⟨_, rfl⟩

theorem followed_shape (rf : Raft C me) (leaderCommit : ℕ) :
    ∃ ci ap, rf.followed leaderCommit = { rf with commitIndex := ci, appliers := ap } := by
  unfold followed committed
  split_ifs
  · exact ⟨_, _, rfl⟩
  · exact ⟨_, _, rfl⟩
  · exact ⟨_, _, rfl⟩

theorem matched_shape (rf : Raft C me) (server : Fin n) (args : AppendEntriesArgs n C) :
    ∃ ni mi ci ap, rf.matched server args
      = { rf with nextIndex := ni, matchIndex := mi, commitIndex := ci, appliers := ap } := by
  unfold matched committed recordMatch
  split
  · exact ⟨_, _, _, _, rfl⟩
  · exact ⟨_, _, _, _, rfl⟩

@[simp] theorem accepted_currentTerm (rf : Raft C me) (args : AppendEntriesArgs n C) :
    (rf.accepted args).currentTerm = max rf.currentTerm args.term := by
  unfold accepted
  obtain ⟨ci, ap, h⟩ := followed_shape
    { rf.observeTerm args.term with logs := mergeLogs rf.logs args } args.leaderCommit
  rw [h, ← observeTerm_currentTerm]
  rfl

/-- An accepted request changes vote and role as its term does. -/
theorem accepted_core (rf : Raft C me) (args : AppendEntriesArgs n C) :
    (rf.accepted args).epoch = rf.epoch ∧
      (rf.accepted args).votedFor = (rf.observeTerm args.term).votedFor ∧
      (rf.accepted args).state = (rf.observeTerm args.term).state ∧
      (rf.accepted args).elections = rf.elections ∧
      (rf.accepted args).appends = rf.appends ∧
      (rf.accepted args).logs = mergeLogs rf.logs args := by
  unfold accepted
  obtain ⟨ci, ap, h⟩ := followed_shape
    { rf.observeTerm args.term with logs := mergeLogs rf.logs args } args.leaderCommit
  rw [h]
  refine ⟨?_, rfl, rfl, ?_, ?_, rfl⟩
  · rw [← observeTerm_epoch rf args.term]
    rfl
  · rw [← observeTerm_elections rf args.term]
    rfl
  · rw [← observeTerm_appends rf args.term]
    rfl

/-! ## Elections -/

/-- The server after `startElection`, from any role. -/
def campaigned (rf : Raft C me) (last : LogEntry C) : Raft C me :=
  persist
    { rf with
      currentTerm := rf.currentTerm + 1
      votedFor := some me
      state := if rf.state = .follower then .candidate else rf.state
      elections := rf.elections ++
        [⟨⟨rf.currentTerm + 1, me, rf.logs.length - 1, last.term⟩, 1, others me⟩] }

/-- An expiry of the election timer campaigns; it panics only on an empty log. -/
theorem electionTimeout_eq (rf : Raft C me) {last : LogEntry C}
    (hlast : rf.logs[rf.logs.length - 1]? = some last) :
    rf.electionTimeout = .ok (rf.campaigned last, (others me).map fun server =>
      .requestVote me rf.epoch rf.elections.length server
        ⟨rf.currentTerm + 1, me, rf.logs.length - 1, last.term⟩) := by
  unfold electionTimeout convertToCandidate startElection campaigned
  by_cases hs : rf.state = .follower
  · have hs' : rf.state ≠ .candidate := by rw [hs]; simp
    simp only [hs, hlast, if_true, reduceCtorEq, if_false]
  · simp only [hs, hlast, if_false]

/-- The panic of `startElection` on an empty log. -/
theorem electionTimeout_of_nil (rf : Raft C me) (hlogs : rf.logs = []) :
    ∃ rf' : Raft C me, rf.electionTimeout = .error rf'.persist ∧
      rf'.epoch = rf.epoch ∧ rf'.currentTerm = rf.currentTerm + 1 ∧ rf'.logs = rf.logs := by
  unfold electionTimeout convertToCandidate startElection
  by_cases hs : rf.state = .follower
  · simp only [hs, hlogs, if_true, reduceCtorEq, if_false]
    exact ⟨_, rfl, rfl, rfl, rfl⟩
  · simp only [hs, hlogs, if_false]
    exact ⟨_, rfl, rfl, rfl, rfl⟩

/-- The server with one more answer in round `k`. -/
def answered (rf : Raft C me) (k : ℕ) (e : Election n) (server : Fin n) (count : ℕ) :
    Raft C me :=
  { rf with elections := rf.elections.set k (e.answered server count) }

/-- The server that wins an election. -/
def elected (rf : Raft C me) : Raft C me :=
  broadcastHeartbeat
    { rf with
      state := .leader
      nextIndex := fun _ => rf.logs.length
      matchIndex := fun _ => 0 }

/-- The server after it has granted its vote. -/
def granted (rf : Raft C me) (args : RequestVoteArgs n) : Raft C me :=
  persist { rf.observeTerm args.term with votedFor := some args.candidateId }

/-- A request that is not refused is of the current term or a newer one. -/
theorem le_of_not_refusesVote {rf : Raft C me} {args : RequestVoteArgs n}
    (h : ¬ rf.refusesVote args) : rf.currentTerm ≤ args.term :=
  not_lt.mp fun hlt => h (Or.inl hlt)

/-- A request that is not refused is decided by the comparison of the logs. -/
theorem requestVote_eq {rf : Raft C me} {args : RequestVoteArgs n} {last : LogEntry C}
    (h : ¬ rf.refusesVote args) (hlast : rf.logs[rf.logs.length - 1]? = some last) :
    rf.requestVote args =
      if args.lastLogTerm < last.term ∨
          (args.lastLogTerm = last.term ∧ args.lastLogIndex < rf.logs.length - 1) then
        .ok ((rf.observeTerm args.term).persist, ⟨args.term, false⟩)
      else .ok (rf.granted args, ⟨args.term, true⟩) := by
  unfold requestVote granted
  rw [if_neg h]
  dsimp only
  rw [observeTerm_logs, hlast, observeTerm_currentTerm, max_eq_right (le_of_not_refusesVote h)]

/-- The panic of `RequestVote` on an empty log. -/
theorem requestVote_of_nil {rf : Raft C me} {args : RequestVoteArgs n}
    (h : ¬ rf.refusesVote args) (hlast : rf.logs[rf.logs.length - 1]? = none) :
    rf.requestVote args = .error (rf.observeTerm args.term).persist := by
  unfold requestVote
  rw [if_neg h]
  dsimp only
  rw [observeTerm_logs, hlast]

/-- Modifying an element that is there is setting it. -/
theorem modify_eq_set {α : Type*} {l : List α} {k : ℕ} {x : α} (f : α → α)
    (h : l[k]? = some x) : l.modify k f = l.set k (f x) := by
  -- both lists are compared index by index
  apply List.ext_getElem?
  intro i
  rw [List.getElem?_modify, List.getElem?_set]
  obtain ⟨hk, -⟩ := List.getElem?_eq_some_iff.mp h
  by_cases hi : k = i
  · subst hi
    rw [h]
    simp [hk]
  · simp [hi]

/-- The four outcomes of a vote reply in a round that is there. -/
theorem voteReply_eq {rf : Raft C me} {k : ℕ} {server : Fin n} {reply : RequestVoteReply}
    {round : Election n} (hround : rf.elections[k]? = some round) :
    rf.voteReply k server reply =
      if reply.voteGranted ∧ rf.state = .candidate then
        if n / 2 < round.voteCount + 1 then (rf.answered k round server 1).elected
        else rf.answered k round server 1
      else if rf.currentTerm < reply.term then
        ((rf.answered k round server 0).observeTerm reply.term).persist
      else rf.answered k round server 0 := by
  obtain ⟨hk, -⟩ := List.getElem?_eq_some_iff.mp hround
  unfold voteReply
  dsimp only
  rw [modify_eq_set _ hround]
  by_cases hg : reply.voteGranted ∧ rf.state = .candidate
  · rw [if_pos hg, if_pos hg]
    have hset : (rf.elections.set k
        { round with waiting := round.waiting.filter (· ≠ server) })[k]?
        = some { round with waiting := round.waiting.filter (· ≠ server) } := by
      simp [hk]
    rw [modify_eq_set _ hset, List.set_set]
    simp only [List.getElem?_set_self hk, Option.elim_some]
    by_cases hc : n / 2 < round.voteCount + 1
    · rw [if_pos hc, if_pos hc]
      unfold convertToLeader
      rw [if_neg (by simp [hg.2])]
      rfl
    · rw [if_neg hc, if_neg hc]
      rfl
  · rw [if_neg hg, if_neg hg]
    by_cases ht : rf.currentTerm < reply.term
    · rw [if_pos ht, if_pos ht]
      unfold observeTerm
      rw [if_pos (by exact ht)]
      rfl
    · rw [if_neg ht, if_neg ht]
      rfl

/-- `Start` appends one entry. -/
theorem length_startAppend (rf : Raft C me) (k : ℕ) (p : PendingStart C) :
    ((rf.startDone k).startAppend p).1.logs.length = rf.logs.length + 1 := List.length_append

end Raft

namespace Cluster

variable {n : ℕ} {C : Type}

@[simp] theorem put_net (c : Cluster n C) (s : Fin n) (rf : Raft C s) (msgs : List (Msg n C))
    (events : List (Event n C)) : (c.put s rf msgs events).net = c.net ++ msgs := rfl

@[simp] theorem put_history (c : Cluster n C) (s : Fin n) (rf : Raft C s)
    (msgs : List (Msg n C)) (events : List (Event n C)) :
    (c.put s rf msgs events).history = c.history ++ events := rfl

@[simp] theorem put_nodes_self (c : Cluster n C) (s : Fin n) (rf : Raft C s)
    (msgs : List (Msg n C)) (events : List (Event n C)) :
    (c.put s rf msgs events).nodes s = rf :=
  Function.update_self s rf c.nodes

theorem put_nodes_of_ne (c : Cluster n C) {s t : Fin n} (h : t ≠ s) (rf : Raft C s)
    (msgs : List (Msg n C)) (events : List (Event n C)) :
    (c.put s rf msgs events).nodes t = c.nodes t :=
  Function.update_of_ne h rf c.nodes

/-- A property of all servers after a move: of the server that moved, and of
the others as they were. -/
theorem forall_put {c : Cluster n C} {s : Fin n} {rf : Raft C s} {msgs : List (Msg n C)}
    {events : List (Event n C)} {P : (t : Fin n) → Raft C t → Prop} :
    (∀ t, P t ((c.put s rf msgs events).nodes t)) ↔ P s rf ∧ ∀ t, t ≠ s → P t (c.nodes t) := by
  constructor
  · intro h
    refine ⟨by simpa using h s, fun t ht => ?_⟩
    have := h t
    rwa [put_nodes_of_ne c ht] at this
  · rintro ⟨hs, hne⟩ t
    by_cases ht : t = s
    · subst ht
      simpa using hs
    · rw [put_nodes_of_ne c ht]
      exact hne t ht

variable [Inhabited C]

/-- One step of the cluster, branch by branch: the action, the server that
moves and what it becomes, the messages it sends, and what the observer notes. -/
inductive Move (c : Cluster n C) :
    Action n C → (s : Fin n) → Raft C s → List (Msg n C) → List (Event n C) → Prop where
  /-- A crash, or a panic that leaves the persister as it was. -/
  | crash (a : Action n C) (s : Fin n) : Move c a s (c.nodes s).restart [] []
  /-- A panic of a request handler after it has observed the term. -/
  | handlerPanic (m : ℕ) (s : Fin n) (t : ℕ) :
      Move c (.deliver m) s ((c.nodes s).observeTerm t).persist.restart [] []
  /-- A panic of `startElection` on an empty log. -/
  | campaignPanic (s : Fin n) (rf : Raft C s) (hepoch : rf.epoch = (c.nodes s).epoch)
      (hterm : rf.currentTerm = (c.nodes s).currentTerm + 1)
      (hlogs : rf.logs = (c.nodes s).logs) :
      Move c (.electionTimeout s) s rf.persist.restart [] []
  | campaign (s : Fin n) (last : LogEntry C)
      (hlast : (c.nodes s).logs[(c.nodes s).logs.length - 1]? = some last) :
      Move c (.electionTimeout s) s ((c.nodes s).campaigned last)
        ((Raft.others s).map fun server =>
          .requestVote s (c.nodes s).epoch (c.nodes s).elections.length server
            ⟨(c.nodes s).currentTerm + 1, s, (c.nodes s).logs.length - 1, last.term⟩)
        [.ballot s (c.nodes s).epoch (c.nodes s).elections.length ((c.nodes s).currentTerm + 1)]
  | heartbeat (s : Fin n) : Move c (.heartbeatTimeout s) s (c.nodes s).heartbeatTimeout [] []
  /-- A heartbeat goroutine of a server that is no longer leader. -/
  | heartbeatSkip (s : Fin n) (k : ℕ) (hstate : (c.nodes s).state ≠ .leader) :
      Move c (.sendHeartbeat s k) s ((c.nodes s).heartbeatDone k) [] []
  | heartbeatSend (s : Fin n) (k : ℕ) (server : Fin n) (i : ℕ) (prev : LogEntry C)
      (hstate : (c.nodes s).state = .leader) (hprev : (c.nodes s).logs[i]? = some prev) :
      Move c (.sendHeartbeat s k) s
        (((c.nodes s).heartbeatDone k).called server ((c.nodes s).appendArgs i prev))
        [.appendEntries s (c.nodes s).epoch (c.nodes s).appends.length server
          ((c.nodes s).appendArgs i prev)] []
  /-- `RequestVote` refuses by the term or by an earlier vote. -/
  | voteRefuse (m : ℕ) (src : Fin n) (e k : ℕ) (dst : Fin n) (args : RequestVoteArgs n)
      (hm : c.net[m]? = some (.requestVote src e k dst args)) :
      Move c (.deliver m) dst (c.nodes dst).persist
        [.requestVoteReply src e k dst ⟨(c.nodes dst).currentTerm, false⟩] []
  /-- `RequestVote` refuses because the candidate's log is behind. -/
  | voteBehind (m : ℕ) (src : Fin n) (e k : ℕ) (dst : Fin n) (args : RequestVoteArgs n)
      (hm : c.net[m]? = some (.requestVote src e k dst args)) :
      Move c (.deliver m) dst ((c.nodes dst).observeTerm args.term).persist
        [.requestVoteReply src e k dst ⟨args.term, false⟩] []
  | voteGrant (m : ℕ) (src : Fin n) (e k : ℕ) (dst : Fin n) (args : RequestVoteArgs n)
      (last : LogEntry C)
      (hm : c.net[m]? = some (.requestVote src e k dst args))
      (hrefuse : ¬ (c.nodes dst).refusesVote args)
      (hlast : (c.nodes dst).logs[(c.nodes dst).logs.length - 1]? = some last)
      (hup : ¬ (args.lastLogTerm < last.term ∨
        (args.lastLogTerm = last.term ∧ args.lastLogIndex < (c.nodes dst).logs.length - 1))) :
      Move c (.deliver m) dst ((c.nodes dst).granted args)
        [.requestVoteReply src e k dst ⟨args.term, true⟩]
        [.granted dst args.term args.candidateId]
  /-- A granted vote is counted without reaching a majority. -/
  | voteCount (m : ℕ) (src : Fin n) (k : ℕ) (dst : Fin n) (reply : RequestVoteReply)
      (round : Election n)
      (hm : c.net[m]? = some (.requestVoteReply src (c.nodes src).epoch k dst reply))
      (hround : (c.nodes src).elections[k]? = some round) (hwait : dst ∈ round.waiting)
      (hgranted : reply.voteGranted = true) (hstate : (c.nodes src).state = .candidate)
      (hcount : ¬ n / 2 < round.voteCount + 1) :
      Move c (.deliver m) src ((c.nodes src).answered k round dst 1) [] []
  /-- A granted vote completes a majority of its round. -/
  | voteElect (m : ℕ) (src : Fin n) (k : ℕ) (dst : Fin n) (reply : RequestVoteReply)
      (round : Election n)
      (hm : c.net[m]? = some (.requestVoteReply src (c.nodes src).epoch k dst reply))
      (hround : (c.nodes src).elections[k]? = some round) (hwait : dst ∈ round.waiting)
      (hgranted : reply.voteGranted = true) (hstate : (c.nodes src).state = .candidate)
      (hcount : n / 2 < round.voteCount + 1) :
      Move c (.deliver m) src ((c.nodes src).answered k round dst 1).elected [] []
  /-- Any other vote reply: at most its term is observed. -/
  | voteOther (m : ℕ) (src : Fin n) (k : ℕ) (dst : Fin n) (reply : RequestVoteReply)
      (round : Election n)
      (hm : c.net[m]? = some (.requestVoteReply src (c.nodes src).epoch k dst reply))
      (hround : (c.nodes src).elections[k]? = some round) (rf : Raft C src)
      (hrf : rf = (c.nodes src).answered k round dst 0 ∨ (c.nodes src).currentTerm < reply.term ∧
        rf = (((c.nodes src).answered k round dst 0).observeTerm reply.term).persist) :
      Move c (.deliver m) src rf [] []
  /-- `AppendEntries` of an old term. -/
  | appendStale (m : ℕ) (src : Fin n) (e k : ℕ) (dst : Fin n) (args : AppendEntriesArgs n C)
      (hm : c.net[m]? = some (.appendEntries src e k dst args))
      (hterm : args.term < (c.nodes dst).currentTerm) :
      Move c (.deliver m) dst (c.nodes dst).persist
        [.appendEntriesReply src e k dst { term := (c.nodes dst).currentTerm }] []
  /-- `AppendEntries` whose previous entry is missing or of another term. -/
  | appendReject (m : ℕ) (src : Fin n) (e k : ℕ) (dst : Fin n) (args : AppendEntriesArgs n C)
      (reply : AppendEntriesReply)
      (hm : c.net[m]? = some (.appendEntries src e k dst args))
      (hterm : (c.nodes dst).currentTerm ≤ args.term) (hreply : reply.success = false)
      (hreplyTerm : reply.term = args.term) :
      Move c (.deliver m) dst ((c.nodes dst).observeTerm args.term).persist
        [.appendEntriesReply src e k dst reply] []
  | appendAccept (m : ℕ) (src : Fin n) (e k : ℕ) (dst : Fin n) (args : AppendEntriesArgs n C)
      (prev : LogEntry C)
      (hm : c.net[m]? = some (.appendEntries src e k dst args))
      (hterm : (c.nodes dst).currentTerm ≤ args.term)
      (hprev : (c.nodes dst).logs[args.prevLogIndex]? = some prev)
      (hprevTerm : prev.term = args.prevLogTerm) :
      Move c (.deliver m) dst ((c.nodes dst).accepted args)
        [.appendEntriesReply src e k dst { success := true }] []
  /-- A successful append reply. -/
  | replyMatch (m : ℕ) (src : Fin n) (k : ℕ) (reply : AppendEntriesReply) (call : AppendCall n C)
      (hm : c.net[m]? = some (.appendEntriesReply src (c.nodes src).epoch k call.server reply))
      (hcall : (c.nodes src).appends[k]? = some call) (hsuccess : reply.success = true) :
      Move c (.deliver m) src
        (((c.nodes src).callDone k call).matched call.server call.args) [] []
  /-- An append reply of a newer term. -/
  | replyHigher (m : ℕ) (src : Fin n) (k : ℕ) (reply : AppendEntriesReply)
      (call : AppendCall n C)
      (hm : c.net[m]? = some (.appendEntriesReply src (c.nodes src).epoch k call.server reply))
      (hcall : (c.nodes src).appends[k]? = some call)
      (hterm : (c.nodes src).currentTerm < reply.term) :
      Move c (.deliver m) src
        (((c.nodes src).callDone k call).observeTerm reply.term).persist [] []
  /-- A rejected append: `nextIndex` moves back. -/
  | replyBackoff (m : ℕ) (src : Fin n) (k : ℕ) (reply : AppendEntriesReply)
      (call : AppendCall n C) (next : Fin n → ℕ)
      (hcall : (c.nodes src).appends[k]? = some call) :
      Move c (.deliver m) src
        { (c.nodes src).callDone k call with nextIndex := next } [] []
  | startRead (s : Fin n) (command : C) :
      Move c (.startRead s command) s ((c.nodes s).startRead command) [] []
  | startAppend (s : Fin n) (k : ℕ) (p : PendingStart C) (hp : (c.nodes s).starts[k]? = some p) :
      Move c (.startAppend s k) s
        (((c.nodes s).startDone k).startAppend p).1 [] []
  | applySend (s : Fin n) (k : ℕ) (g : Applier C) (msg : ApplyMsg C)
      (hg : (c.nodes s).appliers[k]? = some g) (hmsg : g.msg? = some msg) :
      Move c (.applySend s k) s ((c.nodes s).applySend k) [] [.applied s (c.nodes s).epoch msg]
  | applyStore (s : Fin n) (k : ℕ) (g : Applier C)
      (hg : (c.nodes s).appliers[k]? = some g) (hsent : g.sent = true) :
      Move c (.applyStore s k) s ((c.nodes s).applyStore k g) [] []

/-! ## Every step is a move -/

section Inversion

variable {c c' : Cluster n C}

/-- A step of `c` with action `a` leads to `c'` by a move. -/
def Moves (c : Cluster n C) (a : Action n C) (c' : Cluster n C) : Prop :=
  ∃ (s : Fin n) (rf : Raft C s) (msgs : List (Msg n C)) (events : List (Event n C)),
    c' = c.put s rf msgs events ∧ Move c a s rf msgs events

theorem Move.moves {a : Action n C} {s : Fin n} {rf : Raft C s} {msgs : List (Msg n C)}
    {events : List (Event n C)} (h : Move c a s rf msgs events) :
    Moves c a (c.put s rf msgs events) :=
  ⟨s, rf, msgs, events, rfl, h⟩

/-- Delivery of a vote request. -/
theorem moves_requestVote {m : ℕ} {src : Fin n} {e k : ℕ} {dst : Fin n} {args : RequestVoteArgs n}
    (hm : c.net[m]? = some (.requestVote src e k dst args))
    (h : c.receive (.requestVote src e k dst args) = some c') : Moves c (.deliver m) c' := by
  obtain rfl : _ = c' := Option.some.inj h
  by_cases hr : (c.nodes dst).refusesVote args
  · have heq : (c.nodes dst).requestVote args
        = .ok ((c.nodes dst).persist, ⟨(c.nodes dst).currentTerm, false⟩) := if_pos hr
    rw [heq]
    exact (Move.voteRefuse m src e k dst args hm).moves
  · rcases hlast : (c.nodes dst).logs[(c.nodes dst).logs.length - 1]? with _ | last
    · rw [Raft.requestVote_of_nil hr hlast]
      exact (Move.handlerPanic m dst args.term).moves
    · rw [Raft.requestVote_eq hr hlast]
      split_ifs with hup
      · exact (Move.voteBehind m src e k dst args hm).moves
      · exact (Move.voteGrant m src e k dst args last hm hr hlast hup).moves

/-- Delivery of a vote reply. -/
theorem moves_requestVoteReply {m : ℕ} {src : Fin n} {e k : ℕ} {dst : Fin n}
    {reply : RequestVoteReply}
    (hm : c.net[m]? = some (.requestVoteReply src e k dst reply))
    (h : c.receive (.requestVoteReply src e k dst reply) = some c') : Moves c (.deliver m) c' := by
  obtain ⟨rfl, round, hround, hmem, rfl⟩ := receive_requestVoteReply h
  rw [Raft.voteReply_eq hround]
  by_cases hg : reply.voteGranted ∧ (c.nodes src).state = .candidate
  · rw [if_pos hg]
    split_ifs with hc
    · exact (Move.voteElect m src k dst reply round hm hround hmem hg.1 hg.2 hc).moves
    · exact (Move.voteCount m src k dst reply round hm hround hmem hg.1 hg.2 hc).moves
  · rw [if_neg hg]
    split_ifs with ht
    · exact (Move.voteOther m src k dst reply round hm hround _ (Or.inr ⟨ht, rfl⟩)).moves
    · exact (Move.voteOther m src k dst reply round hm hround _ (Or.inl rfl)).moves

/-- Delivery of an append request. -/
theorem moves_appendEntries {m : ℕ} {src : Fin n} {e k : ℕ} {dst : Fin n}
    {args : AppendEntriesArgs n C}
    (hm : c.net[m]? = some (.appendEntries src e k dst args))
    (h : c.receive (.appendEntries src e k dst args) = some c') : Moves c (.deliver m) c' := by
  obtain rfl : _ = c' := Option.some.inj h
  by_cases ht : args.term < (c.nodes dst).currentTerm
  · have heq : (c.nodes dst).appendEntries args
        = .ok ((c.nodes dst).persist, { term := (c.nodes dst).currentTerm }) := if_pos ht
    rw [heq]
    exact (Move.appendStale m src e k dst args hm ht).moves
  · have hle := not_lt.mp ht
    by_cases hacc : ∃ prev, (c.nodes dst).logs[args.prevLogIndex]? = some prev ∧
        prev.term = args.prevLogTerm
    · obtain ⟨prev, hprev, hp⟩ := hacc
      rw [Raft.appendEntries_eq hle hprev hp]
      exact (Move.appendAccept m src e k dst args prev hm hle hprev hp).moves
    · push Not at hacc
      rcases Raft.appendEntries_of_mismatch hle hacc with ⟨reply, hs, ht, heq⟩ | heq
      · rw [heq]
        exact (Move.appendReject m src e k dst args reply hm hle hs ht).moves
      · rw [heq]
        exact (Move.handlerPanic m dst args.term).moves

/-- Delivery of an append reply. -/
theorem moves_appendEntriesReply {m : ℕ} {src : Fin n} {e k : ℕ} {dst : Fin n}
    {reply : AppendEntriesReply}
    (hm : c.net[m]? = some (.appendEntriesReply src e k dst reply))
    (h : c.receive (.appendEntriesReply src e k dst reply) = some c') :
    Moves c (.deliver m) c' := by
  obtain ⟨rfl, call, hcall, rfl, rfl⟩ := receive_appendEntriesReply h
  by_cases hs : reply.success = true
  · rw [Raft.appendReply_of_success hs]
    exact (Move.replyMatch m src k reply call hm hcall hs).moves
  · have hs' : reply.success = false := by simpa using hs
    by_cases ht : (c.nodes src).currentTerm < reply.term
    · rw [Raft.appendReply_of_higher ((c.nodes src).callDone k call) hs' ht]
      exact (Move.replyHigher m src k reply call hm hcall ht).moves
    · obtain ⟨next, hok | herr⟩ := Raft.appendReply_of_failure
        ((c.nodes src).callDone k call) call.server call.args hs' ht
      · rw [hok]
        exact (Move.replyBackoff m src k reply call next hcall).moves
      · rw [herr]
        exact (Move.crash (.deliver m) src).moves

/-- **Inversion.**  Every step of the cluster is one of the moves. -/
theorem step_move {a : Action n C} (h : c.step a = some c') : Moves c a c' := by
  cases a with
  | electionTimeout s =>
      obtain rfl : _ = c' := Option.some.inj h
      rcases hlast : (c.nodes s).logs[(c.nodes s).logs.length - 1]? with _ | last
      · have hnil : (c.nodes s).logs = [] := by
          rw [List.getElem?_eq_none_iff] at hlast
          exact List.length_eq_zero_iff.mp (by omega)
        obtain ⟨rf', heq, hepoch, hterm, hlogs⟩ := Raft.electionTimeout_of_nil (c.nodes s) hnil
        rw [heq]
        exact (Move.campaignPanic s rf' hepoch hterm hlogs).moves
      · rw [Raft.electionTimeout_eq _ hlast]
        exact (Move.campaign s last hlast).moves
  | heartbeatTimeout s =>
      obtain rfl : _ = c' := Option.some.inj h
      exact (Move.heartbeat s).moves
  | sendHeartbeat s k =>
      obtain ⟨server, _, rfl⟩ := step_sendHeartbeat h
      rcases Raft.heartbeatRequest_cases ((c.nodes s).heartbeatDone k) server with
        ⟨hs, heq⟩ | heq | ⟨i, prev, hs, hprev, heq⟩
      · rw [heq]
        exact (Move.heartbeatSkip s k hs).moves
      · rw [heq]
        exact (Move.crash (.sendHeartbeat s k) s).moves
      · rw [heq]
        exact (Move.heartbeatSend s k server i prev hs hprev).moves
  | deliver m =>
      obtain ⟨msg, hm, hreceive⟩ := step_deliver h
      cases msg with
      | requestVote src e k dst args => exact moves_requestVote hm hreceive
      | requestVoteReply src e k dst reply => exact moves_requestVoteReply hm hreceive
      | appendEntries src e k dst args => exact moves_appendEntries hm hreceive
      | appendEntriesReply src e k dst reply => exact moves_appendEntriesReply hm hreceive
  | startRead s command =>
      obtain rfl : _ = c' := Option.some.inj h
      exact (Move.startRead s command).moves
  | startAppend s k =>
      obtain ⟨p, hk, rfl⟩ := step_startAppend h
      exact (Move.startAppend s k p hk).moves
  | applySend s k =>
      obtain ⟨g, msg, hk, hmsg, rfl⟩ := step_applySend h
      exact (Move.applySend s k g msg hk hmsg).moves
  | applyStore s k =>
      obtain ⟨g, hk, hsent, rfl⟩ := step_applyStore h
      exact (Move.applyStore s k g hk hsent).moves
  | crash s =>
      obtain rfl : _ = c' := Option.some.inj h
      exact (Move.crash (.crash s) s).moves

end Inversion

end Cluster

end Mit6824
