/-
# The leader's indices stay inside its log

`broadcastHeartbeat` reads `rf.logs[nextIndex-1]` when it builds a request, and
the handler of an unsuccessful reply searches `rf.logs` backwards from the
`PrevLogIndex` of the request.  Neither is checked against the length of the log,
and `nextIndex` is taken from whatever reply arrives: the stale-term rejection
leaves `ConflictIndex` at `0`, and a request of an earlier leadership may be about
a log that has been cut since.

`IndexMove` is the view of a step that this needs: what becomes of `nextIndex`,
of the heartbeat goroutines and of the append calls, and which rejections are
sent.  Under `SoundIndex` a leader handles only replies to requests of its own
term; then `nextIndex` stays between `1` and the length of the log and no search
leaves it (`leaderIndex_safe`).  In `staleReject` a leader gets a `nextIndex` of `0`.
-/
import Mit6824.RaftMatch

namespace Mit6824

namespace Raft

variable {n : ℕ} {C : Type} {me : Fin n}

/-! ## The backward searches -/

/-- The search of `AppendEntries` ends between `1` and its start. -/
theorem conflictScan_bounds {logs : List (LogEntry C)} {t i j : ℕ}
    (h : conflictScan logs t i = some j) : 1 ≤ j ∧ j ≤ i := by
  induction i with
  | zero => simp [conflictScan] at h
  | succ i ih =>
      rw [conflictScan] at h
      rcases hlogs : logs[i]? with _ | e
      · simp [hlogs] at h
      · simp only [hlogs] at h
        split_ifs at h with hterm
        · obtain ⟨h1, h2⟩ := ih h
          omega
        · obtain rfl := Option.some.inj h
          omega

/-- The leader's search finds an index between `1` and its start. -/
theorem conflictSearch_bounds {logs : List (LogEntry C)} {t : ℤ} {i j : ℕ}
    (h : conflictSearch logs t i = some (some j)) : 1 ≤ j ∧ j ≤ i := by
  induction i with
  | zero => simp [conflictSearch] at h
  | succ i ih =>
      rw [conflictSearch] at h
      rcases hlogs : logs[i]? with _ | e
      · simp [hlogs] at h
      · simp only [hlogs] at h
        split_ifs at h with hterm
        · obtain rfl : i + 1 = j := by simpa using h
          omega
        · obtain ⟨h1, h2⟩ := ih h
          omega

/-- The leader's search stays inside a log that is not shorter than its start. -/
theorem conflictSearch_ne_none {logs : List (LogEntry C)} (t : ℤ) {i : ℕ}
    (hi : i ≤ logs.length) : conflictSearch logs t i ≠ none := by
  induction i with
  | zero => simp [conflictSearch]
  | succ i ih =>
      rw [conflictSearch, List.getElem?_eq_getElem (by omega)]
      dsimp only
      split_ifs with hterm
      · simp
      · exact ih (by omega)

/-! ## Rejections -/

/-- How a reply rejects a request: by a newer term, or in the term of the request with
a conflict index between `1` and its `PrevLogIndex`. -/
def Rejects (args : AppendEntriesArgs n C) (reply : AppendEntriesReply) : Prop :=
  args.term < reply.term ∨
    (reply.term = args.term ∧ 1 ≤ reply.conflictIndex ∧ reply.conflictIndex ≤ args.prevLogIndex)

/-- A request that is not accepted, on a log that is not empty: it is rejected, or the
handler panics. -/
theorem appendEntries_rejects {rf : Raft C me} {args : AppendEntriesArgs n C}
    (hle : rf.currentTerm ≤ args.term) (hne : rf.logs ≠ [])
    (hprev : ∀ prev, rf.logs[args.prevLogIndex]? = some prev → prev.term ≠ args.prevLogTerm) :
    (∃ reply : AppendEntriesReply, reply.success = false ∧ Rejects args reply ∧
      rf.appendEntries args = .ok ((rf.observeTerm args.term).persist, reply)) ∨
    rf.appendEntries args = .error (rf.observeTerm args.term).persist := by
  have hpos : 0 < rf.logs.length := List.length_pos_of_ne_nil hne
  rcases appendEntries_mismatch_cases hle hprev with ⟨hshort, heq⟩ | ⟨prev, i, hscan, heq⟩ | heq
  · -- the log ends before the previous entry
    exact .inl ⟨⟨args.term, false, -1, rf.logs.length⟩, rfl, .inr ⟨rfl, hpos, hshort⟩, heq⟩
  · exact .inl ⟨⟨args.term, false, prev.term, i⟩, rfl, .inr ⟨rfl, conflictScan_bounds hscan⟩, heq⟩
  · exact .inr heq

/-- **The back-off of the leader**: `nextIndex` becomes the conflict index or an index
that the search has found, and the handler panics only when the search starts past
the end of the log. -/
theorem appendReply_backoff (rf : Raft C me) (server : Fin n) (args : AppendEntriesArgs n C)
    {reply : AppendEntriesReply} (h : reply.success = false)
    (hterm : reply.term ≤ rf.currentTerm) :
    ∃ i, (i = reply.conflictIndex ∨ 1 ≤ i ∧ i ≤ args.prevLogIndex) ∧
      (rf.appendReply server args reply
          = .ok { rf with nextIndex := Function.update rf.nextIndex server i } ∨
        rf.appendReply server args reply
          = .error { rf with nextIndex := Function.update rf.nextIndex server i } ∧
        rf.logs.length < args.prevLogIndex) := by
  unfold appendReply
  rw [if_neg (by simp [h]), if_neg (not_lt.mpr hterm)]
  dsimp only
  split_ifs with hconflict
  · exact ⟨_, .inl rfl, .inl rfl⟩
  · rcases hsearch : conflictSearch rf.logs reply.conflictTerm args.prevLogIndex with _ | _ | i
    · refine ⟨_, .inl rfl, .inr ⟨rfl, ?_⟩⟩
      by_contra hlen
      exact conflictSearch_ne_none _ (not_lt.mp hlen) hsearch
    · exact ⟨_, .inl rfl, .inl rfl⟩
    · refine ⟨i, .inr (conflictSearch_bounds hsearch), .inl ?_⟩
      dsimp only
      rw [Function.update_idem]

/-- Building a request stays inside the log when `nextIndex` does. -/
theorem heartbeatRequest_ok {rf : Raft C me} {server : Fin n}
    (h : rf.state = .leader → 1 ≤ rf.nextIndex server ∧ rf.nextIndex server ≤ rf.logs.length) :
    ∃ out, rf.heartbeatRequest server = .ok out := by
  unfold heartbeatRequest
  by_cases hs : rf.state = .leader
  · rw [if_neg (by simpa using hs)]
    obtain ⟨hlow, hhigh⟩ := h hs
    rcases hnext : rf.nextIndex server with _ | i
    · omega
    · have hi : i < rf.logs.length := by omega
      dsimp only
      rw [List.getElem?_eq_getElem hi]
      exact ⟨_, rfl⟩
  · rw [if_pos hs]
    exact ⟨_, rfl⟩

/-- A request that the server has sent: if it is of the current term, then the server
still leads, and the request is inside its log. -/
def Covers (rf : Raft C me) (args : AppendEntriesArgs n C) : Prop :=
  args.term ≤ rf.currentTerm ∧ (args.term = rf.currentTerm → rf.state = .leader ∧
    args.prevLogIndex + args.entries.length < rf.logs.length)

@[simp] theorem observeTerm_nextIndex (rf : Raft C me) (t : ℕ) :
    (rf.observeTerm t).nextIndex = rf.nextIndex := by
  unfold observeTerm convertToFollower; split_ifs <;> rfl
@[simp] theorem observeTerm_heartbeats (rf : Raft C me) (t : ℕ) :
    (rf.observeTerm t).heartbeats = rf.heartbeats := by
  unfold observeTerm convertToFollower; split_ifs <;> rfl

/-- An accepted request leaves the leader's bookkeeping alone. -/
theorem accepted_indices (rf : Raft C me) (args : AppendEntriesArgs n C) :
    (rf.accepted args).nextIndex = rf.nextIndex ∧
      (rf.accepted args).matchIndex = rf.matchIndex ∧
      (rf.accepted args).heartbeats = rf.heartbeats := by
  unfold accepted
  obtain ⟨ci, ap, h⟩ := followed_shape
    { rf.observeTerm args.term with logs := mergeLogs rf.logs args } args.leaderCommit
  rw [h]
  exact ⟨observeTerm_nextIndex rf args.term, observeTerm_matchIndex rf args.term,
    observeTerm_heartbeats rf args.term⟩

end Raft

namespace Cluster

variable {n : ℕ} {C : Type} {c : Cluster n C} {a : Action n C} {s : Fin n}
  {rf : Raft C s} {msgs : List (Msg n C)} {events : List (Event n C)}

/-! ## The view -/

/-- The server keeps its log and its append calls, starts heartbeat goroutines only
for other peers, and is leader of its old term exactly if it was. -/
structure Steady (c : Cluster n C) (s : Fin n) (rf : Raft C s) : Prop where
  logs : rf.logs = (c.nodes s).logs
  calls : SameCalls c s rf
  beats : ∀ p ∈ rf.heartbeats, p ∈ (c.nodes s).heartbeats ∨ p ≠ s
  term : (c.nodes s).currentTerm ≤ rf.currentTerm
  stay : rf.state = .leader →
    (c.nodes s).state = .leader ∧ rf.currentTerm = (c.nodes s).currentTerm
  keep : (c.nodes s).state = .leader → rf.currentTerm = (c.nodes s).currentTerm →
    rf.state = .leader

/-- No append request and no reply to one. -/
structure NoAppend (msgs : List (Msg n C)) : Prop where
  request : ∀ {src e k dst args}, .appendEntries src e k dst args ∉ msgs
  reply : ∀ {src e k dst reply}, .appendEntriesReply src e k dst reply ∉ msgs

theorem NoAppend.nil : NoAppend ([] : List (Msg n C)) := by
  constructor <;> simp

/-- The view of a step that the leader's indices need. -/
inductive IndexMove (c : Cluster n C) :
    Action n C → (s : Fin n) → Raft C s → List (Msg n C) → Prop where
  | steady (a : Action n C) (s : Fin n) (rf : Raft C s) (msgs : List (Msg n C))
      (h : Steady c s rf) (hnext : rf.nextIndex = (c.nodes s).nextIndex)
      (hmsgs : NoAppend msgs) : IndexMove c a s rf msgs
  | reboot (a : Action n C) (s : Fin n) (rf : Raft C s) (hlogs : rf.logs = (c.nodes s).logs)
      (hstate : rf.state = .follower) (happends : rf.appends = [])
      (hbeats : rf.heartbeats = []) : IndexMove c a s rf []
  | elect (m : ℕ) (s : Fin n) (rf : Raft C s) (hstate : (c.nodes s).state = .candidate)
      (hterm : rf.currentTerm = (c.nodes s).currentTerm) (hlogs : rf.logs = (c.nodes s).logs)
      (hnext : ∀ p, rf.nextIndex p = (c.nodes s).logs.length)
      (happends : rf.appends = (c.nodes s).appends)
      (hbeats : ∀ p ∈ rf.heartbeats, p ∈ (c.nodes s).heartbeats ∨ p ≠ s) :
      IndexMove c (.deliver m) s rf []
  | send (s : Fin n) (k : ℕ) (server : Fin n) (i : ℕ) (prev : LogEntry C)
      (hbeat : (c.nodes s).heartbeats[k]? = some server)
      (hstate : (c.nodes s).state = .leader) (hprev : (c.nodes s).logs[i]? = some prev) :
      IndexMove c (.sendHeartbeat s k) s
        (((c.nodes s).heartbeatDone k).called server ((c.nodes s).appendArgs i prev))
        [.appendEntries s (c.nodes s).epoch (c.nodes s).appends.length server
          ((c.nodes s).appendArgs i prev)]
  | reject (m : ℕ) (src : Fin n) (e k : ℕ) (dst : Fin n) (args : AppendEntriesArgs n C)
      (reply : AppendEntriesReply) (rf : Raft C dst)
      (hm : .appendEntries src e k dst args ∈ c.net) (h : Steady c dst rf)
      (hnext : rf.nextIndex = (c.nodes dst).nextIndex) (hreject : Raft.Rejects args reply) :
      IndexMove c (.deliver m) dst rf [.appendEntriesReply src e k dst reply]
  | accept (m : ℕ) (src : Fin n) (e k : ℕ) (dst : Fin n) (args : AppendEntriesArgs n C)
      (prev : LogEntry C) (hm : .appendEntries src e k dst args ∈ c.net)
      (hterm : (c.nodes dst).currentTerm ≤ args.term)
      (hprev : (c.nodes dst).logs[args.prevLogIndex]? = some prev) :
      IndexMove c (.deliver m) dst ((c.nodes dst).accepted args)
        [.appendEntriesReply src e k dst { success := true }]
  | answer (m : ℕ) (s : Fin n) (k : ℕ) (reply : AppendEntriesReply) (call : AppendCall n C)
      (rf : Raft C s) (i : ℕ)
      (hm : c.net[m]? = some (.appendEntriesReply s (c.nodes s).epoch k call.server reply))
      (hcall : (c.nodes s).appends[k]? = some call) (h : Steady c s rf)
      (hnext : rf.nextIndex = Function.update (c.nodes s).nextIndex call.server i)
      (hi : reply.success = true ∧ i = call.args.prevLogIndex + call.args.entries.length + 1 ∨
        reply.success = false ∧ reply.term ≤ (c.nodes s).currentTerm ∧
          (i = reply.conflictIndex ∨ 1 ≤ i ∧ i ≤ call.args.prevLogIndex)) :
      IndexMove c (.deliver m) s rf []
  | append (s : Fin n) (k : ℕ) (p : PendingStart C) (hp : (c.nodes s).starts[k]? = some p) :
      IndexMove c (.startAppend s k) s (((c.nodes s).startDone k).startAppend p).1 []

/-! ## Every sound step has this view -/

/-- A server that keeps these fields is steady. -/
theorem Steady.of_eq (hlogs : rf.logs = (c.nodes s).logs) (hepoch : rf.epoch = (c.nodes s).epoch)
    (happends : rf.appends = (c.nodes s).appends)
    (hbeats : ∀ p ∈ rf.heartbeats, p ∈ (c.nodes s).heartbeats ∨ p ≠ s)
    (hterm : rf.currentTerm = (c.nodes s).currentTerm)
    (hstate : rf.state = (c.nodes s).state) : Steady c s rf where
  logs := hlogs
  calls := .of_eq hepoch happends
  beats := hbeats
  term := hterm.ge
  stay := fun h => ⟨hstate ▸ h, hterm⟩
  keep := fun h _ => hstate.trans h

/-- Observing a term and persisting keeps a server steady. -/
theorem Steady.observeTerm (h : Steady c s rf) (t : ℕ) :
    Steady c s (rf.observeTerm t).persist where
  logs := (Raft.observeTerm_logs rf t).trans h.logs
  calls := by
    refine ⟨(Raft.observeTerm_epoch rf t).trans h.calls.epoch, ?_, ?_⟩
    · rw [Raft.persist_appends, Raft.observeTerm_appends]
      exact h.calls.length
    · intro k call' hcall
      rw [Raft.persist_appends, Raft.observeTerm_appends] at hcall
      exact h.calls.call hcall
  beats := by
    intro p hp
    have hp' : p ∈ (rf.observeTerm t).heartbeats := hp
    rw [Raft.observeTerm_heartbeats] at hp'
    exact h.beats p hp'
  term := by
    rw [Raft.persist_currentTerm, Raft.observeTerm_currentTerm]
    exact h.term.trans (le_max_left _ _)
  stay := by
    intro hlead
    have hlead' : (rf.observeTerm t).state = .leader := hlead
    have hle : t ≤ rf.currentTerm := Raft.observeTerm_of_state_ne (by rw [hlead']; simp)
    rw [Raft.observeTerm_of_le hle] at hlead'
    rw [Raft.observeTerm_of_le hle]
    exact h.stay hlead'
  keep := by
    intro hlead hterm
    rw [Raft.persist_currentTerm, Raft.observeTerm_currentTerm] at hterm
    have hle : t ≤ rf.currentTerm := by
      have h1 := h.term
      have h2 : t ≤ max rf.currentTerm t := le_max_right _ _
      omega
    rw [max_eq_left hle] at hterm
    rw [Raft.persist_state, Raft.observeTerm_of_le hle]
    exact h.keep hlead hterm

/-- The server as it is. -/
theorem Steady.refl (c : Cluster n C) (s : Fin n) : Steady c s (c.nodes s) :=
  .of_eq rfl rfl rfl (fun _ hp => .inl hp) rfl rfl

/-- The server with its disk written. -/
theorem Steady.persist (c : Cluster n C) (s : Fin n) : Steady c s (c.nodes s).persist :=
  .of_eq rfl rfl rfl (fun _ hp => .inl hp) rfl rfl

/-- An append call that returns. -/
theorem Steady.callDone {k : ℕ} {call : AppendCall n C}
    (hcall : (c.nodes s).appends[k]? = some call) : Steady c s ((c.nodes s).callDone k call) where
  logs := rfl
  calls := .callDone hcall rfl rfl
  beats := fun _ hp => .inl hp
  term := le_rfl
  stay := fun h => ⟨h, rfl⟩
  keep := fun h _ => h

/-- `others` are other peers. -/
theorem ne_of_mem_others {p : Fin n} (h : p ∈ Raft.others s) : p ≠ s := by
  unfold Raft.others at h
  rw [List.mem_filter] at h
  simpa using h.2

variable [Inhabited C]

/-- A step of `c` with action `a` leads to `c'` by an index move. -/
def IndexMoves (c : Cluster n C) (a : Action n C) (c' : Cluster n C) : Prop :=
  ∃ (s : Fin n) (rf : Raft C s) (msgs : List (Msg n C)) (events : List (Event n C)),
    c' = c.put s rf msgs events ∧ IndexMove c a s rf msgs

omit [Inhabited C] in
theorem IndexMove.moves (h : IndexMove c a s rf msgs) (events : List (Event n C)) :
    IndexMoves c a (c.put s rf msgs events) :=
  ⟨s, rf, msgs, events, rfl, h⟩

omit [Inhabited C] in
/-- A server that keeps what concerns the indices moves steadily. -/
theorem IndexMoves.of_eq (hlogs : rf.logs = (c.nodes s).logs)
    (hepoch : rf.epoch = (c.nodes s).epoch) (happends : rf.appends = (c.nodes s).appends)
    (hbeats : rf.heartbeats = (c.nodes s).heartbeats)
    (hterm : rf.currentTerm = (c.nodes s).currentTerm) (hstate : rf.state = (c.nodes s).state)
    (hnext : rf.nextIndex = (c.nodes s).nextIndex) : IndexMoves c a (c.put s rf [] events) :=
  (IndexMove.steady a s rf []
    (.of_eq hlogs hepoch happends (fun _ hp => .inl (hbeats ▸ hp)) hterm hstate) hnext
    .nil).moves events

/-- A restart is a reboot when it gives back the log. -/
theorem IndexMove.restart (rf : Raft C s) (hlogs : rf.restart.logs = (c.nodes s).logs) :
    IndexMove c a s rf.restart [] := by
  have hfields : rf.restart.appends = [] ∧ rf.restart.heartbeats = [] := by
    unfold Raft.restart Raft.make Raft.readPersist
    rcases rf.persister with _ | d
    · exact ⟨rfl, rfl⟩
    · exact ⟨rfl, rfl⟩
  exact .reboot a s _ hlogs (Raft.restart_state rf) hfields.1 hfields.2

/-- Delivery of a vote request. -/
theorem indexMoves_requestVote {c' : Cluster n C} (hne : (c.nodes s).logs ≠ []) {m : ℕ}
    {src : Fin n} {e k : ℕ} {args : RequestVoteArgs n}
    (h : c.receive (.requestVote src e k s args) = some c') : IndexMoves c (.deliver m) c' := by
  obtain rfl : _ = c' := Option.some.inj h
  have hmsgs : ∀ reply, NoAppend [(.requestVoteReply src e k s reply : Msg n C)] := by
    intro reply
    constructor <;> simp
  by_cases hr : (c.nodes s).refusesVote args
  · have heq : (c.nodes s).requestVote args
        = .ok ((c.nodes s).persist, ⟨(c.nodes s).currentTerm, false⟩) := if_pos hr
    rw [heq]
    exact (IndexMove.steady _ s _ _ (.persist c s) rfl (hmsgs _)).moves _
  · rcases hlast : (c.nodes s).logs[(c.nodes s).logs.length - 1]? with _ | last
    · rw [List.getElem?_eq_none_iff] at hlast
      exact absurd (List.length_eq_zero_iff.mp (by omega)) hne
    · have hsteady := (Steady.refl c s).observeTerm args.term
      have hnext : ((c.nodes s).observeTerm args.term).nextIndex = (c.nodes s).nextIndex :=
        Raft.observeTerm_nextIndex _ _
      rw [Raft.requestVote_eq hr hlast]
      split_ifs with hup
      · exact (IndexMove.steady _ s _ _ hsteady hnext (hmsgs _)).moves _
      · -- a granted vote changes `votedFor` as well
        have hgranted : Steady c s ((c.nodes s).granted args) :=
          ⟨hsteady.logs, ⟨hsteady.calls.epoch, hsteady.calls.length, hsteady.calls.call⟩,
            hsteady.beats, hsteady.term, hsteady.stay, hsteady.keep⟩
        exact (IndexMove.steady _ s _ _ hgranted hnext (hmsgs _)).moves _

/-- Delivery of a vote reply. -/
theorem indexMoves_requestVoteReply {c' : Cluster n C} {m : ℕ} {e k : ℕ} {dst : Fin n}
    {reply : RequestVoteReply}
    (h : c.receive (.requestVoteReply s e k dst reply) = some c') :
    IndexMoves c (.deliver m) c' := by
  obtain ⟨rfl, round, hround, _, rfl⟩ := receive_requestVoteReply h
  rw [Raft.voteReply_eq hround]
  have hanswered : ∀ count, Steady c s ((c.nodes s).answered k round dst count) :=
    fun _ => .of_eq rfl rfl rfl (fun _ hp => .inl hp) rfl rfl
  by_cases hg : reply.voteGranted ∧ (c.nodes s).state = .candidate
  · rw [if_pos hg]
    split_ifs with hc
    · refine (IndexMove.elect m s ((c.nodes s).answered k round dst 1).elected hg.2 rfl rfl
        (fun _ => rfl) rfl ?_).moves _
      intro p hp
      rcases List.mem_append.mp hp with hold | hnew
      · exact .inl hold
      · exact .inr (ne_of_mem_others hnew)
    · exact (IndexMove.steady _ s _ _ (hanswered 1) rfl .nil).moves _
  · rw [if_neg hg]
    split_ifs with ht
    · refine (IndexMove.steady _ s _ _ ((hanswered 0).observeTerm reply.term) ?_ .nil).moves _
      exact Raft.observeTerm_nextIndex _ _
    · exact (IndexMove.steady _ s _ _ (hanswered 0) rfl .nil).moves _

/-- Delivery of an append request. -/
theorem indexMoves_appendEntries {c' : Cluster n C} (hne : (c.nodes s).logs ≠ []) {m : ℕ}
    {src : Fin n} {e k : ℕ} {args : AppendEntriesArgs n C}
    (hm : .appendEntries src e k s args ∈ c.net)
    (h : c.receive (.appendEntries src e k s args) = some c') : IndexMoves c (.deliver m) c' := by
  obtain rfl : _ = c' := Option.some.inj h
  have hsteady := (Steady.refl c s).observeTerm args.term
  by_cases ht : args.term < (c.nodes s).currentTerm
  · have heq : (c.nodes s).appendEntries args
        = .ok ((c.nodes s).persist, { term := (c.nodes s).currentTerm }) := if_pos ht
    rw [heq]
    exact (IndexMove.reject m src e k s args { term := (c.nodes s).currentTerm } _ hm
      (.persist c s) rfl (.inl ht)).moves _
  · have hle := not_lt.mp ht
    by_cases hacc : ∃ prev, (c.nodes s).logs[args.prevLogIndex]? = some prev ∧
        prev.term = args.prevLogTerm
    · obtain ⟨prev, hprev, hp⟩ := hacc
      rw [Raft.appendEntries_eq hle hprev hp]
      exact (IndexMove.accept m src e k s args prev hm hle hprev).moves _
    · push Not at hacc
      rcases Raft.appendEntries_rejects hle hne hacc with ⟨reply, -, hreject, heq⟩ | heq
      · rw [heq]
        exact (IndexMove.reject m src e k s args reply _ hm hsteady
          (Raft.observeTerm_nextIndex _ _) hreject).moves _
      · rw [heq]
        exact (IndexMove.restart ((c.nodes s).observeTerm args.term).persist
          (Raft.observeTerm_logs (c.nodes s) args.term)).moves _

/-- Delivery of an append reply. -/
theorem indexMoves_appendEntriesReply {c' : Cluster n C} (hi : VoteInv c) {m : ℕ} {e k : ℕ}
    {dst : Fin n} {reply : AppendEntriesReply}
    (hm : c.net[m]? = some (.appendEntriesReply s e k dst reply))
    (h : c.receive (.appendEntriesReply s e k dst reply) = some c') :
    IndexMoves c (.deliver m) c' := by
  obtain ⟨rfl, call, hcall, rfl, rfl⟩ := receive_appendEntriesReply h
  have hdone : Steady c s ((c.nodes s).callDone k call) := .callDone hcall
  by_cases hs : reply.success = true
  · rw [Raft.appendReply_of_success hs]
    obtain ⟨ni, mi, ci, ap, hshape⟩ :=
      ((c.nodes s).callDone k call).matched_shape call.server call.args
    have hnext : (((c.nodes s).callDone k call).matched call.server call.args).nextIndex
        = Function.update (c.nodes s).nextIndex call.server
          (call.args.prevLogIndex + call.args.entries.length + 1) := by
      unfold Raft.matched
      split
      · rfl
      · rfl
    refine (IndexMove.answer m s k reply call _ _ hm hcall ?_ hnext (.inl ⟨hs, rfl⟩)).moves _
    rw [hshape]
    exact ⟨rfl, ⟨hdone.calls.epoch, hdone.calls.length, hdone.calls.call⟩, hdone.beats,
      le_rfl, hdone.stay, hdone.keep⟩
  · have hs' : reply.success = false := by simpa using hs
    by_cases ht : (c.nodes s).currentTerm < reply.term
    · rw [Raft.appendReply_of_higher ((c.nodes s).callDone k call) hs' ht]
      exact (IndexMove.steady _ s _ _ (hdone.observeTerm reply.term)
        (Raft.observeTerm_nextIndex _ _) .nil).moves _
    · obtain ⟨i, hbounds, hok | ⟨herr, -⟩⟩ := Raft.appendReply_backoff
        ((c.nodes s).callDone k call) call.server call.args hs' (not_lt.mp ht)
      · rw [hok]
        refine (IndexMove.answer m s k reply call _ i hm hcall ?_ rfl
          (.inr ⟨hs', not_lt.mp ht, hbounds⟩)).moves _
        exact ⟨rfl, ⟨hdone.calls.epoch, hdone.calls.length, hdone.calls.call⟩, hdone.beats,
          le_rfl, hdone.stay, hdone.keep⟩
      · rw [herr]
        exact (IndexMove.restart _ (Raft.restart_of_synced (hi.synced s)).2.2).moves _

/-- Goroutine `k` of `broadcastHeartbeat` takes the lock. -/
theorem indexMoves_sendHeartbeat {c' : Cluster n C} (hi : VoteInv c) {k : ℕ}
    (h : c.step (.sendHeartbeat s k) = some c') : IndexMoves c (.sendHeartbeat s k) c' := by
  obtain ⟨server, hk, rfl⟩ := step_sendHeartbeat h
  rcases Raft.heartbeatRequest_cases ((c.nodes s).heartbeatDone k) server with
    ⟨hs, heq⟩ | heq | ⟨i, prev, hs, hprev, heq⟩
  · rw [heq]
    refine (IndexMove.steady _ s ((c.nodes s).heartbeatDone k) _
      (.of_eq rfl rfl rfl ?_ rfl rfl) rfl .nil).moves _
    exact fun p hp => .inl (List.mem_of_mem_eraseIdx hp)
  · rw [heq]
    exact (IndexMove.restart ((c.nodes s).heartbeatDone k)
      (Raft.restart_of_synced (hi.synced s)).2.2).moves _
  · rw [heq]
    exact (IndexMove.send s k server i prev hk hs hprev).moves _

/-- **Inversion.**  Every step that elects soundly is one of the index moves. -/
theorem step_indexMoves {c' : Cluster n C} (hi : VoteInv c) (hne : ∀ s, (c.nodes s).logs ≠ [])
    (hok : c.SoundElection a) (h : c.step a = some c') : IndexMoves c a c' := by
  cases a with
  | electionTimeout s =>
      obtain rfl : _ = c' := Option.some.inj h
      have hlast : ∃ last, (c.nodes s).logs[(c.nodes s).logs.length - 1]? = some last := by
        have := List.length_pos_of_ne_nil (hne s)
        exact ⟨_, List.getElem?_eq_getElem (by omega)⟩
      obtain ⟨last, hlast⟩ := hlast
      rw [Raft.electionTimeout_eq _ hlast]
      have hmsgs : NoAppend ((Raft.others s).map fun server =>
          (.requestVote s (c.nodes s).epoch (c.nodes s).elections.length server
            ⟨(c.nodes s).currentTerm + 1, s, (c.nodes s).logs.length - 1, last.term⟩ :
              Msg n C)) := by
        constructor <;> simp
      refine (IndexMove.steady _ s ((c.nodes s).campaigned last) _ ⟨rfl, .of_eq rfl rfl,
        fun _ hp => .inl hp, Nat.le_succ _, fun hlead => ?_, fun _ hterm => ?_⟩ rfl hmsgs).moves _
      · -- only a leader would stay leader
        have hif : (if (c.nodes s).state = .follower then NodeState.candidate
          else (c.nodes s).state) = .leader := hlead
        split_ifs at hif
        exact absurd hif (hok.1 s rfl)
      · exact absurd hterm (Nat.succ_ne_self _)
  | heartbeatTimeout s =>
      obtain rfl : _ = c' := Option.some.inj h
      refine (IndexMove.steady _ s _ _ ?_ ?_ .nil).moves _
      · obtain ⟨hb, hshape⟩ := (c.nodes s).heartbeatTimeout_shape
        refine .of_eq ?_ ?_ ?_ ?_ ?_ ?_
        · rw [hshape]
        · rw [hshape]
        · rw [hshape]
        · intro p hp
          unfold Raft.heartbeatTimeout at hp
          split_ifs at hp
          · rcases List.mem_append.mp hp with hold | hnew
            · exact .inl hold
            · exact .inr (ne_of_mem_others hnew)
          · exact .inl hp
        · rw [hshape]
        · rw [hshape]
      · obtain ⟨hb, hshape⟩ := (c.nodes s).heartbeatTimeout_shape
        rw [hshape]
  | sendHeartbeat s k => exact indexMoves_sendHeartbeat hi h
  | deliver m =>
      obtain ⟨msg, hm, hreceive⟩ := step_deliver h
      cases msg with
      | requestVote src e k dst args => exact indexMoves_requestVote (hne dst) hreceive
      | requestVoteReply src e k dst reply => exact indexMoves_requestVoteReply hreceive
      | appendEntries src e k dst args =>
          exact indexMoves_appendEntries (hne dst) (List.mem_of_getElem? hm) hreceive
      | appendEntriesReply src e k dst reply => exact indexMoves_appendEntriesReply hi hm hreceive
  | startRead s command =>
      obtain rfl : _ = c' := Option.some.inj h
      obtain ⟨st, hshape⟩ := (c.nodes s).startRead_shape command
      rw [hshape]
      exact .of_eq rfl rfl rfl rfl rfl rfl rfl
  | startAppend s k =>
      obtain ⟨p, hk, rfl⟩ := step_startAppend h
      exact (IndexMove.append s k p hk).moves _
  | applySend s k =>
      obtain ⟨g, msg, _, _, rfl⟩ := step_applySend h
      exact .of_eq rfl rfl rfl rfl rfl rfl rfl
  | applyStore s k =>
      obtain ⟨g, _, _, rfl⟩ := step_applyStore h
      exact .of_eq rfl rfl rfl rfl rfl rfl rfl
  | crash s =>
      obtain rfl : _ = c' := Option.some.inj h
      exact (IndexMove.restart (c.nodes s) (Raft.restart_of_synced (hi.synced s)).2.2).moves _

/-! ## The condition on replies -/

omit [Inhabited C] in
/-- A reply that can move `nextIndex` answers a request of the server's current term:
a successful one that reaches a leader, and an unsuccessful one whose term is not
newer. -/
def CurrentReply (c : Cluster n C) : Msg n C → Prop
  | .appendEntriesReply src _ k _ reply => ∀ call ∈ (c.nodes src).appends[k]?,
      (reply.success = true ∧ (c.nodes src).state = .leader ∨
        reply.success = false ∧ reply.term ≤ (c.nodes src).currentTerm) →
      (c.nodes src).currentTerm = call.args.term
  | _ => True

instance (c : Cluster n C) : DecidablePred c.CurrentReply
  | .appendEntriesReply src _ k _ reply =>
      inferInstanceAs (Decidable (∀ call ∈ (c.nodes src).appends[k]?,
        (reply.success = true ∧ (c.nodes src).state = .leader ∨
          reply.success = false ∧ reply.term ≤ (c.nodes src).currentTerm) →
        (c.nodes src).currentTerm = call.args.term))
  | .requestVote _ _ _ _ _ => .isTrue trivial
  | .requestVoteReply _ _ _ _ _ => .isTrue trivial
  | .appendEntries _ _ _ _ _ => .isTrue trivial

/-- A step that elects soundly and handles only replies of the current term. -/
def SoundIndex (c : Cluster n C) (a : Action n C) : Prop :=
  c.SoundElection a ∧ c.Delivers c.CurrentReply a

instance (c : Cluster n C) (a : Action n C) : Decidable (c.SoundIndex a) :=
  inferInstanceAs (Decidable (_ ∧ _))

/-! ## The invariant -/

/-- What keeps the leader's indices inside its log. -/
structure IndexInv (c : Cluster n C) : Prop where
  nonempty : ∀ s, (c.nodes s).logs ≠ []
  next : ∀ s, (c.nodes s).state = .leader → ∀ p,
    1 ≤ (c.nodes s).nextIndex p ∧ (c.nodes s).nextIndex p ≤ (c.nodes s).logs.length
  call : ∀ {s : Fin n} {k : ℕ} {call : AppendCall n C}, (c.nodes s).appends[k]? = some call →
    (c.nodes s).Covers call.args
  reply : ∀ {src e k dst reply}, .appendEntriesReply src e k dst reply ∈ c.net →
    reply.success = false → ∃ args, .appendEntries src e k dst args ∈ c.net ∧
      Raft.Rejects args reply
  beats : ∀ {s p}, p ∈ (c.nodes s).heartbeats → p ≠ s
  sender : ∀ {src e k dst args}, .appendEntries src e k dst args ∈ c.net →
    dst ≠ src ∧ c.Won src args.term

theorem indexInv_init : IndexInv (Cluster.init n C) where
  nonempty := fun _ => List.cons_ne_nil _ _
  next := by intro s h; simp [init, Raft.make, Raft.readPersist] at h
  call := by intro s k call h; simp [init, Raft.make, Raft.readPersist] at h
  reply := by intro src e k dst reply h; simp [init] at h
  beats := by intro s p h; simp [init, Raft.make, Raft.readPersist] at h
  sender := by intro src e k dst args h; simp [init] at h

/-- A leader accepts no request of its own term: nobody else has sent one. -/
theorem IndexInv.not_leader_of_accept (h : IndexInv c) (hi : VoteInv c) (hl : LeaderInv c)
    {src : Fin n} {e k : ℕ} {args : AppendEntriesArgs n C}
    (hm : .appendEntries src e k s args ∈ c.net)
    (hterm : (c.nodes s).currentTerm = args.term) : (c.nodes s).state ≠ .leader := by
  intro hlead
  obtain ⟨hne, hwon⟩ := h.sender hm
  rw [← hterm] at hwon
  exact hne (hi.won_unique (hl s hlead) hwon)

omit [Inhabited C] in
/-- The log of the server that moves is not empty. -/
theorem IndexInv.put_nonempty (h : IndexInv c) (hmove : IndexMove c a s rf msgs) :
    rf.logs ≠ [] := by
  cases hmove with
  | steady a s rf msgs hst hnext hmsgs => rw [hst.logs]; exact h.nonempty s
  | reboot a s rf hlogs hstate happends hbeats => rw [hlogs]; exact h.nonempty s
  | elect m s rf hstate hterm hlogs hnext happends hbeats => rw [hlogs]; exact h.nonempty s
  | send s k server i prev hbeat hstate hprev => exact h.nonempty s
  | reject m src e k dst args reply rf hm hst hnext hreject => rw [hst.logs]; exact h.nonempty s
  | accept m src e k dst args prev hm hterm hprev =>
      rw [(Raft.accepted_core (c.nodes s) args).2.2.2.2.2]
      exact Raft.mergeLogs_ne_nil hprev
  | answer m s k reply call rf i hm hcall hst hnext hi => rw [hst.logs]; exact h.nonempty s
  | append s k p hp => exact List.append_ne_nil_of_left_ne_nil (h.nonempty s) _

omit [Inhabited C] in
/-- A steady server covers what it covered. -/
theorem Steady.covers (h : Steady c s rf) {args : AppendEntriesArgs n C}
    (hcover : (c.nodes s).Covers args) : rf.Covers args := by
  refine ⟨hcover.1.trans h.term, fun hterm => ?_⟩
  have hsame : rf.currentTerm = (c.nodes s).currentTerm :=
    le_antisymm (hterm ▸ hcover.1) h.term
  obtain ⟨hlead, hlen⟩ := hcover.2 (hterm.trans hsame)
  exact ⟨h.keep hlead hsame, by rw [h.logs]; exact hlen⟩

omit [Inhabited C] in
/-- The calls of a steady server are covered. -/
theorem IndexInv.steady_call (h : IndexInv c) (hst : Steady c s rf) {k : ℕ}
    {call : AppendCall n C} (hcall : rf.appends[k]? = some call) : rf.Covers call.args := by
  obtain ⟨call', hcall', -, hargs⟩ := hst.calls.call hcall
  rw [hargs]
  exact hst.covers (h.call hcall')

/-- The calls of the server that moves are covered. -/
theorem IndexInv.put_call (h : IndexInv c) (hi : VoteInv c) (hl : LeaderInv c)
    (hmove : IndexMove c a s rf msgs) {k : ℕ} {call : AppendCall n C}
    (hcall : rf.appends[k]? = some call) : rf.Covers call.args := by
  cases hmove with
  | steady a s rf msgs hst hnext hmsgs => exact h.steady_call hst hcall
  | reboot a s rf hlogs hstate happends hbeats =>
      rw [happends] at hcall
      simp at hcall
  | elect m s rf hstate hterm hlogs hnext happends hbeats =>
      rw [happends] at hcall
      obtain ⟨hle, hcover⟩ := h.call hcall
      refine ⟨hle.trans hterm.ge, fun heq => ?_⟩
      -- a candidate has no call of its own term
      rw [(hcover (heq.trans hterm)).1] at hstate
      cases hstate
  | send s k' server i prev hbeat hstate hprev =>
      have hcall' : ((c.nodes s).appends ++ [⟨server, (c.nodes s).appendArgs i prev, true⟩])[k]?
          = some call := hcall
      rw [List.getElem?_append] at hcall'
      split_ifs at hcall' with hk
      · exact h.call hcall'
      · obtain rfl := List.mem_singleton.mp (List.mem_of_getElem? hcall')
        refine ⟨le_rfl, fun _ => ⟨hstate, ?_⟩⟩
        obtain ⟨hlt, -⟩ := List.getElem?_eq_some_iff.mp hprev
        show i + ((c.nodes s).logs.drop (i + 1)).length < (c.nodes s).logs.length
        rw [List.length_drop]
        omega
  | reject m src e k' dst args reply rf hm hst hnext hreject => exact h.steady_call hst hcall
  | accept m src e k' dst args prev hm hterm hprev =>
      obtain ⟨-, -, -, -, happends, -⟩ := Raft.accepted_core (c.nodes s) args
      rw [happends] at hcall
      obtain ⟨hle, hcover⟩ := h.call hcall
      refine ⟨?_, fun heq => ?_⟩
      · rw [Raft.accepted_currentTerm]
        exact hle.trans (le_max_left _ _)
      · rw [Raft.accepted_currentTerm, max_eq_right hterm] at heq
        have hsame : (c.nodes s).currentTerm = args.term := le_antisymm hterm (heq ▸ hle)
        exact absurd (hcover (heq.trans hsame.symm)).1 (h.not_leader_of_accept hi hl hm hsame)
  | answer m s k' reply call' rf i hm hcall' hst hnext hi => exact h.steady_call hst hcall
  | append s k' p hp =>
      have hold : (c.nodes s).appends[k]? = some call := hcall
      obtain ⟨hle, hcover⟩ := h.call hold
      refine ⟨hle, fun heq => ⟨(hcover heq).1, ?_⟩⟩
      have hlen := (c.nodes s).length_startAppend k' p
      have := (hcover heq).2
      omega

omit [Inhabited C] in
/-- The `nextIndex` that a leader takes from a sound reply is inside its log. -/
theorem IndexInv.answer_bounds (h : IndexInv c) (hcalls : CallInv c) {m k i : ℕ}
    {reply : AppendEntriesReply} {call : AppendCall n C} (hok : c.SoundIndex (.deliver m))
    (hs : (c.nodes s).state = .leader)
    (hm : c.net[m]? = some (.appendEntriesReply s (c.nodes s).epoch k call.server reply))
    (hcall : (c.nodes s).appends[k]? = some call)
    (hi : reply.success = true ∧ i = call.args.prevLogIndex + call.args.entries.length + 1 ∨
      reply.success = false ∧ reply.term ≤ (c.nodes s).currentTerm ∧
        (i = reply.conflictIndex ∨ 1 ≤ i ∧ i ≤ call.args.prevLogIndex)) :
    1 ≤ i ∧ i ≤ (c.nodes s).logs.length := by
  have hterm : (c.nodes s).currentTerm = call.args.term := by
    refine hok.2 _ rfl _ hm call hcall ?_
    rcases hi with ⟨hsuccess, -⟩ | ⟨hfail, hle, -⟩
    · exact .inl ⟨hsuccess, hs⟩
    · exact .inr ⟨hfail, hle⟩
  have hlen := ((h.call hcall).2 hterm.symm).2
  rcases hi with ⟨-, rfl⟩ | ⟨hfail, hle, hbounds⟩
  · omega
  · obtain ⟨args, hargs, hreject⟩ := h.reply (List.mem_of_getElem? hm) hfail
    obtain ⟨-, rfl⟩ := hcalls.unique hargs (hcalls.call hcall)
    -- a rejection by a newer term is not handled here
    rcases hreject with hlt | ⟨-, hlow, hhigh⟩
    · omega
    · omega

/-- The `nextIndex` of the leader that moves stays inside its log. -/
theorem IndexInv.put_next (h : IndexInv c) (hi : VoteInv c) (hl : LeaderInv c)
    (hcalls : CallInv c) (hok : c.SoundIndex a) (hmove : IndexMove c a s rf msgs)
    (hlead : rf.state = .leader) (p : Fin n) :
    1 ≤ rf.nextIndex p ∧ rf.nextIndex p ≤ rf.logs.length := by
  cases hmove with
  | steady a s rf msgs hst hnext hmsgs =>
      rw [hnext, hst.logs]
      exact h.next s (hst.stay hlead).1 p
  | reboot a s rf hlogs hstate happends hbeats =>
      rw [hstate] at hlead
      cases hlead
  | elect m s rf hstate hterm hlogs hnext happends hbeats =>
      rw [hnext p, hlogs]
      exact ⟨List.length_pos_of_ne_nil (h.nonempty s), le_rfl⟩
  | send s k server i prev hbeat hstate hprev => exact h.next s hstate p
  | reject m src e k dst args reply rf hm hst hnext hreject =>
      rw [hnext, hst.logs]
      exact h.next s (hst.stay hlead).1 p
  | accept m src e k dst args prev hm hterm hprev =>
      rw [(Raft.accepted_core _ args).2.2.1] at hlead
      have hle : args.term ≤ (c.nodes s).currentTerm :=
        Raft.observeTerm_of_state_ne (by rw [hlead]; simp)
      rw [Raft.observeTerm_of_le hle] at hlead
      exact absurd hlead (h.not_leader_of_accept hi hl hm (le_antisymm hterm hle))
  | answer m s k reply call rf i hm hcall hst hnext hi' =>
      obtain ⟨hs, -⟩ := hst.stay hlead
      rw [hnext, hst.logs]
      by_cases hp : p = call.server
      · subst hp
        rw [Function.update_self]
        exact h.answer_bounds hcalls hok hs hm hcall hi'
      · rw [Function.update_of_ne hp]
        exact h.next s hs p
  | append s k q hq =>
      have hnext : (((c.nodes s).startDone k).startAppend q).1.nextIndex
          = Function.update (c.nodes s).nextIndex s ((c.nodes s).logs.length + 1) := rfl
      rw [Raft.length_startAppend, hnext]
      by_cases hp : p = s
      · subst hp
        rw [Function.update_self]
        omega
      · rw [Function.update_of_ne hp]
        obtain ⟨h1, h2⟩ := h.next s hlead p
        omega

omit [Inhabited C] in
/-- Rejections in flight are of a request in flight, in bounds. -/
theorem IndexInv.put_reply (h : IndexInv c) (hmove : IndexMove c a s rf msgs) {src dst : Fin n}
    {e k : ℕ} {reply : AppendEntriesReply}
    (hm : .appendEntriesReply src e k dst reply ∈ (c.put s rf msgs events).net)
    (hfail : reply.success = false) :
    ∃ args, .appendEntries src e k dst args ∈ (c.put s rf msgs events).net ∧
      Raft.Rejects args reply := by
  rcases List.mem_append.mp hm with hold | hnew
  · obtain ⟨args, hargs, hreject⟩ := h.reply hold hfail
    exact ⟨args, List.mem_append_left _ hargs, hreject⟩
  · cases hmove with
    | steady a s rf msgs hst hnext hmsgs => exact absurd hnew hmsgs.reply
    | reject m src' e' k' dst' args reply' rf hm' hst hnext hreject =>
        simp only [List.mem_singleton, Msg.appendEntriesReply.injEq] at hnew
        obtain ⟨rfl, rfl, rfl, rfl, rfl⟩ := hnew
        exact ⟨args, List.mem_append_left _ hm', hreject⟩
    | accept m src' e' k' dst' args prev hm' hterm hprev =>
        simp only [List.mem_singleton, Msg.appendEntriesReply.injEq] at hnew
        obtain ⟨-, -, -, -, rfl⟩ := hnew
        cases hfail
    | _ => simp at hnew

omit [Inhabited C] in
/-- Heartbeat goroutines are for other peers. -/
theorem IndexMove.beats (hmove : IndexMove c a s rf msgs)
    (hbefore : ∀ p ∈ (c.nodes s).heartbeats, p ≠ s) : ∀ p ∈ rf.heartbeats, p ≠ s := by
  intro p hp
  have hold : p ∈ (c.nodes s).heartbeats ∨ p ≠ s → p ≠ s := by
    rintro (hmem | hne)
    · exact hbefore p hmem
    · exact hne
  cases hmove with
  | steady a s rf msgs hst hnext hmsgs => exact hold (hst.beats p hp)
  | reboot a s rf hlogs hstate happends hbeats =>
      rw [hbeats] at hp
      cases hp
  | elect m s rf hstate hterm hlogs hnext happends hbeats => exact hold (hbeats p hp)
  | send s k server i prev hbeat hstate hprev => exact hbefore p (List.mem_of_mem_eraseIdx hp)
  | reject m src e k dst args reply rf hm hst hnext hreject => exact hold (hst.beats p hp)
  | accept m src e k dst args prev hm hterm hprev =>
      rw [((c.nodes s).accepted_indices args).2.2] at hp
      exact hbefore p hp
  | answer m s k reply call rf i hm hcall hst hnext hi => exact hold (hst.beats p hp)
  | append s k q hq => exact hbefore p hp

omit [Inhabited C] in
/-- Append requests go to other peers and come from winners of their term. -/
theorem IndexInv.put_sender (h : IndexInv c) (hl : LeaderInv c)
    (hmove : IndexMove c a s rf msgs) {src dst : Fin n} {e k : ℕ} {args : AppendEntriesArgs n C}
    (hm : .appendEntries src e k dst args ∈ (c.put s rf msgs events).net) :
    dst ≠ src ∧ (c.put s rf msgs events).Won src args.term := by
  rcases List.mem_append.mp hm with hold | hnew
  · obtain ⟨hne, hwon⟩ := h.sender hold
    exact ⟨hne, hwon.put s rf msgs events⟩
  · cases hmove with
    | steady a s rf msgs hst hnext hmsgs => exact absurd hnew hmsgs.request
    | send s k' server i prev hbeat hstate hprev =>
        simp only [List.mem_singleton, Msg.appendEntries.injEq] at hnew
        obtain ⟨rfl, -, -, rfl, rfl⟩ := hnew
        exact ⟨h.beats (List.mem_of_getElem? hbeat), (hl src hstate).put _ _ _ _⟩
    | _ => simp at hnew

/-- **Every sound step keeps the indices inside the logs.** -/
theorem IndexInv.step {c' : Cluster n C} (h : IndexInv c) (hi : VoteInv c) (hl : LeaderInv c)
    (hcalls : CallInv c) (hok : c.SoundIndex a) (hstep : c.step a = some c') : IndexInv c' := by
  obtain ⟨s, rf, msgs, events, rfl, hmove⟩ := step_indexMoves hi h.nonempty hok.1 hstep
  exact {
    nonempty := (forall_put (P := fun _ node => node.logs ≠ [])).mpr
      ⟨h.put_nonempty hmove, fun t _ => h.nonempty t⟩
    next := (forall_put (P := fun _ node => node.state = .leader → ∀ p,
        1 ≤ node.nextIndex p ∧ node.nextIndex p ≤ node.logs.length)).mpr
      ⟨h.put_next hi hl hcalls hok hmove, fun t _ => h.next t⟩
    call := by
      intro t k call hcall
      refine (forall_put (P := fun _ node => ∀ k call, node.appends[k]? = some call →
        node.Covers call.args)).mpr ⟨?_, ?_⟩ t k call hcall
      · exact fun k call => h.put_call hi hl hmove
      · exact fun t _ k call => h.call
    reply := h.put_reply hmove
    beats := by
      intro t p hp
      exact (forall_put (P := fun t node => ∀ p ∈ node.heartbeats, p ≠ t)).mpr
        ⟨hmove.beats fun p => h.beats, fun t _ p => h.beats⟩ t p hp
    sender := h.put_sender hl hmove }

/-! ## What the invariant excludes -/

omit [Inhabited C] in
/-- A reply of the current term searches inside the log. -/
theorem IndexInv.search_lt (h : IndexInv c) {k : ℕ} {call : AppendCall n C}
    (hcall : (c.nodes s).appends[k]? = some call)
    (hterm : (c.nodes s).currentTerm = call.args.term) :
    call.args.prevLogIndex < (c.nodes s).logs.length := by
  have := ((h.call hcall).2 hterm.symm).2
  omega

end Cluster

/-! ## Leader-side index safety -/

section Runs

variable {n : ℕ} {C : Type} [Inhabited C]

/-- The index invariant holds at every moment of a run of sound steps. -/
theorem indexInv_run (r : (raftSystem n C).Run) (hok : r.Meets Cluster.SoundIndex) (k : ℕ) :
    (r.state k).IndexInv := by
  have h := r.invariant hok
    (I := fun c => c.VoteInv ∧ c.LeaderInv ∧ c.CallInv ∧ c.IndexInv)
    ⟨Cluster.voteInv_init, Cluster.leaderInv_init, Cluster.callInv_init, Cluster.indexInv_init⟩
    (by
      rintro c a c' ⟨hi, hl, hcalls, h⟩ hsound hstep
      obtain ⟨s, rf, msgs, events, hput, hmove⟩ := Cluster.step_move hstep
      refine ⟨hi.step hstep, hl.step hi hsound.1 hstep, ?_, h.step hi hl hcalls hsound hstep⟩
      rw [hput]
      exact hcalls.put hmove.replica)
  exact (h k).2.2.2

/-- **Leader-side index safety.**  In every run of sound steps, at every moment and
for every server: if it leads, then `nextIndex[p]` is between `1` and the length of
its log for every peer `p`; no heartbeat goroutine panics when it builds its request;
and an append reply that is handled does not panic either, because the backward search
from `PrevLogIndex` down to `1` reads inside the log whenever it runs. -/
theorem leaderIndex_safe (r : (raftSystem n C).Run) (hok : r.Meets Cluster.SoundIndex)
    (k : ℕ) (s : Fin n) :
    (((r.state k).nodes s).state = .leader → ∀ p, 1 ≤ ((r.state k).nodes s).nextIndex p ∧
      ((r.state k).nodes s).nextIndex p ≤ ((r.state k).nodes s).logs.length) ∧
    (∀ (j : ℕ) (server : Fin n), ∃ out,
      (((r.state k).nodes s).heartbeatDone j).heartbeatRequest server = .ok out) ∧
    ∀ (m e j : ℕ) (dst : Fin n) (reply : AppendEntriesReply) (call : AppendCall n C),
      r.act k = some (.deliver m) →
      (r.state k).net[m]? = some (.appendEntriesReply s e j dst reply) →
      ((r.state k).nodes s).appends[j]? = some call →
      (reply.success = false → reply.term ≤ ((r.state k).nodes s).currentTerm →
        ∀ i, 1 ≤ i → i ≤ call.args.prevLogIndex → i - 1 < ((r.state k).nodes s).logs.length) ∧
      ∃ rf, (((r.state k).nodes s).callDone j call).appendReply dst call.args reply = .ok rf := by
  have h := indexInv_run r hok k
  refine ⟨h.next s, fun j server => Raft.heartbeatRequest_ok fun hs => h.next s hs server, ?_⟩
  intro m e j dst reply call hact hm hcall
  have hsearch : reply.success = false → reply.term ≤ ((r.state k).nodes s).currentTerm →
      call.args.prevLogIndex < ((r.state k).nodes s).logs.length := by
    intro hfail hle
    exact h.search_lt hcall ((hok k _ hact).2 _ rfl _ hm call hcall (.inr ⟨hfail, hle⟩))
  refine ⟨fun hfail hle i _ hi => ?_, ?_⟩
  · have := hsearch hfail hle
    omega
  · by_cases hs : reply.success = true
    · exact ⟨_, Raft.appendReply_of_success hs⟩
    · have hfail : reply.success = false := by simpa using hs
      by_cases ht : ((r.state k).nodes s).currentTerm < reply.term
      · exact ⟨_, Raft.appendReply_of_higher _ hfail ht⟩
      · obtain ⟨i, -, heq | ⟨-, hlt⟩⟩ := Raft.appendReply_backoff
          (((r.state k).nodes s).callDone j call) dst call.args hfail (not_lt.mp ht)
        · exact ⟨_, heq⟩
        · exact absurd (hsearch hfail (not_lt.mp ht)) (lt_asymm hlt)

/-- Server `1` stores the entry of server `0`, wins term `2` and asks server `2`, which
has nothing at index `1`; the rejection makes it back off to index `1`. -/
def backsOff : (raftSystem 3 ℕ).Run :=
  (raftSystem 3 ℕ).ofList
    [.electionTimeout 0, .deliver 0, .deliver 2, .startRead 0 7, .startAppend 0 0,
      .sendHeartbeat 0 0, .deliver 3, .electionTimeout 1, .deliver 6, .deliver 7,
      .sendHeartbeat 1 1, .deliver 8, .deliver 9]

/-- The leader of `backsOff` has a `nextIndex` of `1` inside its log of length `2`, and
the rejection was handled without a panic. -/
theorem leaderIndex_safe_backsOff :
    backsOff.Meets Cluster.SoundIndex ∧ ((backsOff.state 13).nodes 1).state = .leader ∧
      ((backsOff.state 13).nodes 1).nextIndex 2 = 1 ∧
      1 ≤ ((backsOff.state 13).nodes 1).logs.length ∧
      ∃ rf, (((backsOff.state 12).nodes 1).callDone 0 ⟨2, ⟨2, 1, 1, 1, [], 0⟩, true⟩).appendReply 2
        ⟨2, 1, 1, 1, [], 0⟩ ⟨2, false, -1, 1⟩ = .ok rf := by
  have hok : backsOff.Meets Cluster.SoundIndex :=
    TransitionSystem.meets_ofList (by decide)
  have hlead : ((backsOff.state 13).nodes 1).state = .leader := by decide
  have hnext : ((backsOff.state 13).nodes 1).nextIndex 2 = 1 := by decide
  have hbound := ((leaderIndex_safe backsOff hok 13 1).1 hlead 2).2
  rw [hnext] at hbound
  refine ⟨hok, hlead, hnext, hbound, ?_⟩
  exact ((leaderIndex_safe backsOff hok 12 1).2.2 9 0 0 2 ⟨2, false, -1, 1⟩
    ⟨2, ⟨2, 1, 1, 1, [], 0⟩, true⟩ (by decide) (by decide) rfl).2

/-- Server `0` leads term `1` and asks server `2`, which is in term `2` by then; the
rejection is delayed until server `0`, which has observed term `2`, leads term `3`. -/
def staleReject : (raftSystem 3 ℕ).Run :=
  (raftSystem 3 ℕ).ofList
    [.electionTimeout 0, .deliver 0, .deliver 2, .sendHeartbeat 0 1, .electionTimeout 2,
      .electionTimeout 2, .deliver 3, .deliver 6, .electionTimeout 0, .deliver 10, .deliver 12,
      .deliver 8]

/-- Without the condition on replies, a leader has a `nextIndex` of `0`. -/
theorem leaderIndex_safe_fails :
    ¬ ∀ (r : (raftSystem 3 ℕ).Run) (k : ℕ) (s : Fin 3),
      (((r.state k).nodes s).state = .leader → ∀ p, 1 ≤ ((r.state k).nodes s).nextIndex p ∧
        ((r.state k).nodes s).nextIndex p ≤ ((r.state k).nodes s).logs.length) ∧
      (∀ (j : ℕ) (server : Fin 3), ∃ out,
        (((r.state k).nodes s).heartbeatDone j).heartbeatRequest server = .ok out) ∧
      ∀ (m e j : ℕ) (dst : Fin 3) (reply : AppendEntriesReply) (call : AppendCall 3 ℕ),
        r.act k = some (.deliver m) →
        (r.state k).net[m]? = some (.appendEntriesReply s e j dst reply) →
        ((r.state k).nodes s).appends[j]? = some call →
        (reply.success = false → reply.term ≤ ((r.state k).nodes s).currentTerm →
          ∀ i, 1 ≤ i → i ≤ call.args.prevLogIndex → i - 1 < ((r.state k).nodes s).logs.length) ∧
        ∃ rf, (((r.state k).nodes s).callDone j call).appendReply dst call.args reply = .ok rf := by
  intro h
  have hlead : ((staleReject.state 12).nodes 0).state = .leader := by decide
  have hnext : ((staleReject.state 12).nodes 0).nextIndex 2 = 0 := by decide
  have hpos := ((h staleReject 12 0).1 hlead 2).1
  rw [hnext] at hpos
  exact absurd hpos (by decide)

end Runs

end Mit6824
