/-
# A leader and its append calls

While a server leads a term, its `nextIndex`, `matchIndex` and commit index change only when
one of its append calls returns or a `Start` appends.  `LeadMove` is this view of a step; the
server is assumed to stay leader of its term, so panics, elections and step-downs are out.

On the side of the followers, `answer_of_step` says that a new reply on the network has just
been computed by the receiver of its request.
-/
import Mit6824.RaftCommit
import Mit6824.RaftIndex

namespace Mit6824

namespace Raft

variable {n : ℕ} {C : Type} {me : Fin n}

/-! ## What a follower answers -/

/-- A rejection names an index that is not behind the previous entry of the request. -/
theorem conflictIndex_le {rf rf' : Raft C me} {args : AppendEntriesArgs n C}
    {reply : AppendEntriesReply} (h : rf.appendEntries args = .ok (rf', reply))
    (hfail : reply.success = false) : reply.conflictIndex ≤ args.prevLogIndex := by
  unfold appendEntries at h
  split_ifs at h with hterm
  · obtain ⟨-, rfl⟩ := Prod.mk.inj (Except.ok.inj h)
    exact Nat.zero_le _
  · dsimp only at h
    rw [observeTerm_logs] at h
    rcases hp : rf.logs[args.prevLogIndex]? with _ | prev
    · rw [hp] at h
      obtain ⟨-, rfl⟩ := Prod.mk.inj (Except.ok.inj h)
      exact List.getElem?_eq_none_iff.mp hp
    · rw [hp] at h
      dsimp only at h
      split_ifs at h with hprev
      · rcases hscan : conflictScan rf.logs prev.term args.prevLogIndex with _ | i
        · simp [hscan] at h
        · rw [hscan] at h
          obtain ⟨-, rfl⟩ := Prod.mk.inj (Except.ok.inj h)
          exact (conflictScan_bounds hscan).2
      · -- the request is accepted
        split at h
        · cases h
        · obtain ⟨-, rfl⟩ := Prod.mk.inj (Except.ok.inj h)
          cases hfail

/-- What becomes of the leader's own fields when a step is none of its business. -/
structure SameLead (rf rf' : Raft C me) : Prop where
  logs : rf'.logs = rf.logs
  nextIndex : rf'.nextIndex = rf.nextIndex
  matchIndex : rf'.matchIndex = rf.matchIndex
  appends : rf'.appends = rf.appends
  commitIndex : rf'.commitIndex = rf.commitIndex

theorem SameLead.refl (rf : Raft C me) : SameLead rf rf :=
  ⟨rfl, rfl, rfl, rfl, rfl⟩

/-- Observing a term and persisting is such a step. -/
theorem SameLead.observed (rf : Raft C me) (t : ℕ) : SameLead rf (rf.observeTerm t).persist where
  logs := observeTerm_logs rf t
  nextIndex := observeTerm_nextIndex rf t
  matchIndex := observeTerm_matchIndex rf t
  appends := observeTerm_appends rf t
  commitIndex := observeTerm_commitIndex rf t

/-- The request of a heartbeat goroutine starts at `nextIndex`. -/
theorem heartbeatRequest_sends (rf : Raft C me) (server : Fin n) (hlead : rf.state = .leader) :
    rf.heartbeatRequest server = .error rf ∨
    ∃ i prev, rf.nextIndex server = i + 1 ∧ rf.logs[i]? = some prev ∧
      rf.heartbeatRequest server = .ok (rf.called server (rf.appendArgs i prev),
        [.appendEntries me rf.epoch rf.appends.length server (rf.appendArgs i prev)]) := by
  unfold heartbeatRequest
  rw [if_neg (by simpa using hlead)]
  rcases hnext : rf.nextIndex server with _ | i
  · exact .inl rfl
  · dsimp only
    rcases hprev : rf.logs[i]? with _ | prev
    · exact .inl rfl
    · exact .inr ⟨i, prev, rfl, hprev, rfl⟩

/-- The counting loop finds every index that is counted. -/
theorem le_commitIndex_matched {rf : Raft C me} {server : Fin n} {args : AppendEntriesArgs n C}
    {i : ℕ} (hlen : i < rf.logs.length)
    (hcount : n / 2 < (rf.recordMatch server args).matchCount i) :
    i ≤ (rf.matched server args).commitIndex := by
  unfold matched
  split
  · rename_i hnone
    by_contra hlt
    exact commitScan_none hnone (not_le.mp hlt) (by omega) hcount
  · rename_i j hj
    show i ≤ j
    by_contra hlt
    exact commitScan_max hj (not_le.mp hlt) (by omega) hcount

/-- What a recorded match leaves behind. -/
theorem matched_indices (rf : Raft C me) (server : Fin n) (args : AppendEntriesArgs n C) :
    (rf.matched server args).nextIndex
        = Function.update rf.nextIndex server (args.prevLogIndex + args.entries.length + 1) ∧
      (rf.matched server args).matchIndex
        = Function.update rf.matchIndex server (args.prevLogIndex + args.entries.length) := by
  unfold matched
  split
  · exact ⟨rfl, rfl⟩
  · exact ⟨rfl, rfl⟩

end Raft

namespace Cluster

variable {n : ℕ} {C : Type} [Inhabited C] {c c' : Cluster n C} {a : Action n C} {s : Fin n}
  {rf : Raft C s} {msgs : List (Msg n C)} {events : List (Event n C)}

/-! ## The leader's view of a step -/

/-- Server `s` leads its term before and after a step. -/
structure Reigns (c c' : Cluster n C) (s : Fin n) : Prop where
  before : (c.nodes s).state = .leader
  after : (c'.nodes s).state = .leader
  epoch : (c'.nodes s).epoch = (c.nodes s).epoch
  term : (c'.nodes s).currentTerm = (c.nodes s).currentTerm

/-- What a step can do to a server that reigns. -/
inductive LeadMove (c : Cluster n C) (s : Fin n) : Action n C → Raft C s → Prop where
  | rest (a : Action n C) (rf : Raft C s) (h : (c.nodes s).SameLead rf)
      (hno : ∀ m e k dst reply, a = .deliver m →
        c.net[m]? ≠ some (.appendEntriesReply s e k dst reply)) : LeadMove c s a rf
  | send (k : ℕ) (server : Fin n) (i : ℕ) (prev : LogEntry C)
      (hnext : (c.nodes s).nextIndex server = i + 1)
      (hprev : (c.nodes s).logs[i]? = some prev) :
      LeadMove c s (.sendHeartbeat s k)
        (((c.nodes s).heartbeatDone k).called server ((c.nodes s).appendArgs i prev))
  | success (m k : ℕ) (reply : AppendEntriesReply) (call : AppendCall n C)
      (hm : c.net[m]? = some (.appendEntriesReply s (c.nodes s).epoch k call.server reply))
      (hcall : (c.nodes s).appends[k]? = some call) (hwait : call.waiting = true)
      (hsuccess : reply.success = true) :
      LeadMove c s (.deliver m) (((c.nodes s).callDone k call).matched call.server call.args)
  | backoff (m k : ℕ) (reply : AppendEntriesReply) (call : AppendCall n C) (i : ℕ)
      (hm : c.net[m]? = some (.appendEntriesReply s (c.nodes s).epoch k call.server reply))
      (hcall : (c.nodes s).appends[k]? = some call) (hwait : call.waiting = true)
      (hfail : reply.success = false) (hterm : reply.term ≤ (c.nodes s).currentTerm)
      (hi : i = reply.conflictIndex ∨ 1 ≤ i ∧ i ≤ call.args.prevLogIndex) :
      LeadMove c s (.deliver m) { (c.nodes s).callDone k call with
        nextIndex := Function.update (c.nodes s).nextIndex call.server i }
  | accept (m : ℕ) (src : Fin n) (e k : ℕ) (args : AppendEntriesArgs n C)
      (hm : c.net[m]? = some (.appendEntries src e k s args)) :
      LeadMove c s (.deliver m) ((c.nodes s).accepted args)
  | append (k : ℕ) (p : PendingStart C) (hp : (c.nodes s).starts[k]? = some p) :
      LeadMove c s (.startAppend s k) (((c.nodes s).startDone k).startAppend p).1

omit [Inhabited C] in
/-- The server is left alone. -/
theorem LeadMove.other (h : c'.nodes s = c.nodes s) (hno : ∀ m e k dst reply, a = .deliver m →
    c.net[m]? ≠ some (.appendEntriesReply s e k dst reply)) : LeadMove c s a (c'.nodes s) := by
  rw [h]
  exact .rest a _ (.refl _) hno

omit [Inhabited C] in
/-- The message delivered is not a reply to an append call of `s`. -/
theorem not_reply {m : ℕ} {msg : Msg n C} (hm : c.net[m]? = some msg)
    (hmsg : ∀ e k dst reply, msg ≠ .appendEntriesReply s e k dst reply) :
    ∀ m' e k dst reply, Action.deliver (n := n) (C := C) m = .deliver m' →
      c.net[m']? ≠ some (.appendEntriesReply s e k dst reply) := by
  intro m' e k dst reply ha hm'
  obtain rfl : m = m' := by simpa using ha
  exact hmsg e k dst reply (Option.some.inj (hm.symm.trans hm'))

/-- The end of a critical section is the business of one server. -/
theorem finish_nodes_of_ne {t : Fin n} {α : Type} (hst : s ≠ t) (r : Section C t α)
    (f : α → Raft C t × List (Msg n C) × List (Event n C)) :
    (c.finish t r f).nodes s = c.nodes s := by
  cases r with
  | error rf => exact put_nodes_of_ne c hst _ _ _
  | ok x => exact put_nodes_of_ne c hst _ _ _

/-- A message that a handler has put on the network is the reply that it has computed. -/
theorem mem_finish_net {t : Fin n} {α : Type} {result : Section C t (Raft C t × α)}
    (reply : α → Msg n C) (events : α → List (Event n C)) {msg : Msg n C}
    (h : msg ∈ (c.finish t result fun (rf, x) => (rf, [reply x], events x)).net) :
    msg ∈ c.net ∨ ∃ x, msg = reply x ∧ result =
      .ok ((c.finish t result fun (rf, x) => (rf, [reply x], events x)).nodes t, x) := by
  cases result with
  | error rf => exact .inl (by simpa [finish, put] using h)
  | ok out =>
      rcases List.mem_append.mp h with hold | hnew
      · exact .inl hold
      · refine .inr ⟨out.2, List.mem_singleton.mp hnew, ?_⟩
        simp only [finish, put_nodes_self]

/-- A panic ends the reign. -/
theorem Reigns.not_restart (hr : Reigns c (c.put s rf.restart [] []) s)
    (hepoch : rf.epoch = (c.nodes s).epoch) : False := by
  have h := hr.epoch
  rw [put_nodes_self, Raft.restart_epoch] at h
  omega

/-- A reigning server answers a vote request. -/
theorem leadMove_requestVote (hr : Reigns c c' s) {m : ℕ} {src : Fin n} {e k : ℕ} {dst : Fin n}
    {args : RequestVoteArgs n} (hm : c.net[m]? = some (.requestVote src e k dst args))
    (h : c.receive (.requestVote src e k dst args) = some c') :
    LeadMove c s (.deliver m) (c'.nodes s) := by
  have hno := not_reply (s := s) hm (by simp)
  obtain rfl : _ = c' := Option.some.inj h
  by_cases hst : s = dst
  · subst hst
    by_cases hrefuse : (c.nodes s).refusesVote args
    · have heq : (c.nodes s).requestVote args
          = .ok ((c.nodes s).persist, ⟨(c.nodes s).currentTerm, false⟩) := if_pos hrefuse
      rw [heq]
      simp only [finish, put_nodes_self]
      exact .rest _ _ ⟨rfl, rfl, rfl, rfl, rfl⟩ hno
    · rcases hlast : (c.nodes s).logs[(c.nodes s).logs.length - 1]? with _ | last
      · rw [Raft.requestVote_of_nil hrefuse hlast] at hr
        exact (hr.not_restart (Raft.observeTerm_epoch _ _)).elim
      · rw [Raft.requestVote_eq hrefuse hlast]
        split_ifs with hup
        · simp only [finish, put_nodes_self]
          exact .rest _ _ (.observed _ _) hno
        · simp only [finish, put_nodes_self]
          have hsame := Raft.SameLead.observed (c.nodes s) args.term
          exact .rest _ _ ⟨hsame.logs, hsame.nextIndex, hsame.matchIndex, hsame.appends,
            hsame.commitIndex⟩ hno
  · exact .other (finish_nodes_of_ne hst _ _) hno

/-- A reigning server gets the answer of a voter. -/
theorem leadMove_requestVoteReply (hr : Reigns c c' s) {m : ℕ} {src : Fin n} {e k : ℕ}
    {dst : Fin n} {reply : RequestVoteReply}
    (hm : c.net[m]? = some (.requestVoteReply src e k dst reply))
    (h : c.receive (.requestVoteReply src e k dst reply) = some c') :
    LeadMove c s (.deliver m) (c'.nodes s) := by
  have hno := not_reply (s := s) hm (by simp)
  obtain ⟨rfl, round, hround, -, rfl⟩ := receive_requestVoteReply h
  by_cases hst : s = src
  · subst hst
    have hlead := hr.before
    rw [put_nodes_self, Raft.voteReply_eq hround, if_neg (by simp [hlead])]
    split_ifs with hterm
    · have hsame := Raft.SameLead.observed ((c.nodes s).answered k round dst 0) reply.term
      exact .rest _ _ ⟨hsame.logs, hsame.nextIndex, hsame.matchIndex, hsame.appends,
        hsame.commitIndex⟩ hno
    · exact .rest _ _ ⟨rfl, rfl, rfl, rfl, rfl⟩ hno
  · exact .other (put_nodes_of_ne c hst _ _ _) hno

/-- A reigning server answers an append request. -/
theorem leadMove_appendEntries (hr : Reigns c c' s) {m : ℕ} {src : Fin n} {e k : ℕ}
    {dst : Fin n} {args : AppendEntriesArgs n C}
    (hm : c.net[m]? = some (.appendEntries src e k dst args))
    (h : c.receive (.appendEntries src e k dst args) = some c') :
    LeadMove c s (.deliver m) (c'.nodes s) := by
  have hno := not_reply (s := s) hm (by simp)
  obtain rfl : _ = c' := Option.some.inj h
  by_cases hst : s = dst
  · subst hst
    by_cases hstale : args.term < (c.nodes s).currentTerm
    · have heq : (c.nodes s).appendEntries args
          = .ok ((c.nodes s).persist, { term := (c.nodes s).currentTerm }) := if_pos hstale
      rw [heq]
      simp only [finish, put_nodes_self]
      exact .rest _ _ ⟨rfl, rfl, rfl, rfl, rfl⟩ hno
    · have hle := not_lt.mp hstale
      by_cases hacc : ∃ prev, (c.nodes s).logs[args.prevLogIndex]? = some prev ∧
          prev.term = args.prevLogTerm
      · obtain ⟨prev, hprev, hp⟩ := hacc
        rw [Raft.appendEntries_eq hle hprev hp]
        simp only [finish, put_nodes_self]
        exact .accept m src e k args hm
      · push Not at hacc
        rcases Raft.appendEntries_of_mismatch hle hacc with ⟨reply, -, -, heq⟩ | heq
        · rw [heq]
          simp only [finish, put_nodes_self]
          exact .rest _ _ (.observed _ _) hno
        · rw [heq] at hr
          exact (hr.not_restart (Raft.observeTerm_epoch _ _)).elim
  · exact .other (finish_nodes_of_ne hst _ _) hno

/-- A reply is handled by a call that is waiting. -/
theorem waiting_of_receive {src dst : Fin n} {e k : ℕ} {reply : AppendEntriesReply}
    (h : c.receive (.appendEntriesReply src e k dst reply) = some c') {call : AppendCall n C}
    (hcall : (c.nodes src).appends[k]? = some call) : call.waiting = true := by
  unfold receive at h
  dsimp only at h
  rw [hcall] at h
  dsimp only at h
  split_ifs at h with hw
  exact hw.2.2

/-- A reigning server gets the answer to an append call. -/
theorem leadMove_appendEntriesReply (hr : Reigns c c' s) {m : ℕ} {src : Fin n} {e k : ℕ}
    {dst : Fin n} {reply : AppendEntriesReply}
    (hm : c.net[m]? = some (.appendEntriesReply src e k dst reply))
    (h : c.receive (.appendEntriesReply src e k dst reply) = some c') :
    LeadMove c s (.deliver m) (c'.nodes s) := by
  obtain ⟨rfl, call, hcall, rfl, rfl⟩ := receive_appendEntriesReply h
  have hwait := waiting_of_receive h hcall
  by_cases hst : s = src
  · subst hst
    by_cases hs : reply.success = true
    · rw [Raft.appendReply_of_success hs]
      simp only [finish, put_nodes_self]
      exact .success m k reply call hm hcall hwait hs
    · have hs' : reply.success = false := by simpa using hs
      by_cases hterm : (c.nodes s).currentTerm < reply.term
      · -- a newer term would end the reign
        rw [Raft.appendReply_of_higher ((c.nodes s).callDone k call) hs' hterm] at hr
        have hlead := hr.after
        simp only [finish, put_nodes_self, Raft.persist_state] at hlead
        have hlower : ((c.nodes s).callDone k call).currentTerm < reply.term := hterm
        rw [Raft.observeTerm_state_of_lt hlower] at hlead
        cases hlead
      · obtain ⟨i, hi, hok | ⟨herr, -⟩⟩ := Raft.appendReply_backoff
          ((c.nodes s).callDone k call) call.server call.args hs' (not_lt.mp hterm)
        · rw [hok]
          simp only [finish, put_nodes_self]
          exact .backoff m k reply call i hm hcall hwait hs' (not_lt.mp hterm) hi
        · rw [herr] at hr
          exact (hr.not_restart rfl).elim
  · refine .other (finish_nodes_of_ne hst _ _) (not_reply hm ?_)
    intro e' k' dst' reply' heq
    simp only [Msg.appendEntriesReply.injEq] at heq
    exact hst heq.1.symm

/-- A reigning server whose timer fires would begin a new term. -/
theorem leadMove_electionTimeout (hr : Reigns c c' s) {t : Fin n}
    (h : c.step (.electionTimeout t) = some c') :
    LeadMove c s (.electionTimeout t) (c'.nodes s) := by
  obtain rfl : _ = c' := Option.some.inj h
  by_cases hst : s = t
  · subst hst
    exfalso
    rcases hlast : (c.nodes s).logs[(c.nodes s).logs.length - 1]? with _ | last
    · have hnil : (c.nodes s).logs = [] := by
        rw [List.getElem?_eq_none_iff] at hlast
        exact List.length_eq_zero_iff.mp (by omega)
      obtain ⟨rf', heq, hepoch, -, -⟩ := Raft.electionTimeout_of_nil (c.nodes s) hnil
      rw [heq] at hr
      exact hr.not_restart hepoch
    · rw [Raft.electionTimeout_eq _ hlast] at hr
      have hterm := hr.term
      simp only [finish, put_nodes_self] at hterm
      exact absurd hterm (Nat.succ_ne_self _)
  · exact .other (finish_nodes_of_ne hst _ _) (by simp)

/-- A reigning server sends a request. -/
theorem leadMove_sendHeartbeat (hr : Reigns c c' s) {t : Fin n} {k : ℕ}
    (h : c.step (.sendHeartbeat t k) = some c') :
    LeadMove c s (.sendHeartbeat t k) (c'.nodes s) := by
  obtain ⟨server, -, rfl⟩ := step_sendHeartbeat h
  by_cases hst : s = t
  · subst hst
    rcases ((c.nodes s).heartbeatDone k).heartbeatRequest_sends server hr.before with
      herr | ⟨i, prev, hnext, hprev, hok⟩
    · rw [herr] at hr
      exact (hr.not_restart rfl).elim
    · rw [hok]
      simp only [finish, put_nodes_self]
      exact .send k server i prev hnext hprev
  · exact .other (finish_nodes_of_ne hst _ _) (by simp)

/-- A reigning server gets a message. -/
theorem leadMove_deliver (hr : Reigns c c' s) {m : ℕ} (h : c.step (.deliver m) = some c') :
    LeadMove c s (.deliver m) (c'.nodes s) := by
  obtain ⟨msg, hm, hreceive⟩ := step_deliver h
  cases msg with
  | requestVote src e k dst args => exact leadMove_requestVote hr hm hreceive
  | requestVoteReply src e k dst reply => exact leadMove_requestVoteReply hr hm hreceive
  | appendEntries src e k dst args => exact leadMove_appendEntries hr hm hreceive
  | appendEntriesReply src e k dst reply => exact leadMove_appendEntriesReply hr hm hreceive

omit [Inhabited C] in
/-- A critical section of some server that keeps what a leader works with. -/
theorem leadMove_put {t : Fin n} {rf' : Raft C t} (hrest : (c.nodes t).SameLead rf')
    (hno : ∀ m e k dst reply, a = .deliver m →
      c.net[m]? ≠ some (.appendEntriesReply s e k dst reply)) :
    LeadMove c s a ((c.put t rf' msgs events).nodes s) := by
  by_cases hst : s = t
  · subst hst
    rw [put_nodes_self]
    exact .rest _ _ hrest hno
  · exact .other (put_nodes_of_ne c hst _ _ _) hno

/-- **Inversion.**  Every step of a reign is one of the leader's moves. -/
theorem step_leadMove (hr : Reigns c c' s) (h : c.step a = some c') :
    LeadMove c s a (c'.nodes s) := by
  cases a with
  | electionTimeout t => exact leadMove_electionTimeout hr h
  | heartbeatTimeout t =>
      obtain rfl : _ = c' := Option.some.inj h
      obtain ⟨hb, hshape⟩ := (c.nodes t).heartbeatTimeout_shape
      rw [hshape]
      exact leadMove_put ⟨rfl, rfl, rfl, rfl, rfl⟩ (by simp)
  | sendHeartbeat t k => exact leadMove_sendHeartbeat hr h
  | deliver m => exact leadMove_deliver hr h
  | startRead t command =>
      obtain rfl : _ = c' := Option.some.inj h
      obtain ⟨st, hshape⟩ := (c.nodes t).startRead_shape command
      rw [hshape]
      exact leadMove_put ⟨rfl, rfl, rfl, rfl, rfl⟩ (by simp)
  | startAppend t k =>
      obtain ⟨p, hp, rfl⟩ := step_startAppend h
      by_cases hst : s = t
      · subst hst
        rw [put_nodes_self]
        exact .append k p hp
      · exact .other (put_nodes_of_ne c hst _ _ _) (by simp)
  | applySend t k =>
      obtain ⟨g, msg, -, -, rfl⟩ := step_applySend h
      exact leadMove_put ⟨rfl, rfl, rfl, rfl, rfl⟩ (by simp)
  | applyStore t k =>
      obtain ⟨g, -, -, rfl⟩ := step_applyStore h
      exact leadMove_put ⟨rfl, rfl, rfl, rfl, rfl⟩ (by simp)
  | crash t =>
      obtain rfl : _ = c' := Option.some.inj h
      by_cases hst : s = t
      · subst hst
        exact (hr.not_restart rfl).elim
      · exact .other (put_nodes_of_ne c hst _ _ _) (by simp)

/-! ## What the moves do to the calls -/

/-- Append calls stay what they are, except that they return. -/
def CallsGrow (l l' : List (AppendCall n C)) : Prop :=
  ∀ (q : ℕ) (call : AppendCall n C), l[q]? = some call → ∃ call' : AppendCall n C,
    l'[q]? = some call' ∧ call'.server = call.server ∧ call'.args = call.args ∧
      (call'.waiting = true → call.waiting = true)

omit [Inhabited C] in
theorem CallsGrow.refl (l : List (AppendCall n C)) : CallsGrow l l :=
  fun _ call h => ⟨call, h, rfl, rfl, id⟩

omit [Inhabited C] in
theorem CallsGrow.trans {l₁ l₂ l₃ : List (AppendCall n C)} (h : CallsGrow l₁ l₂)
    (h' : CallsGrow l₂ l₃) : CallsGrow l₁ l₃ := by
  intro q call hq
  obtain ⟨call₂, hq₂, hserver, hargs, hwait⟩ := h q call hq
  obtain ⟨call₃, hq₃, hserver', hargs', hwait'⟩ := h' q call₂ hq₂
  exact ⟨call₃, hq₃, hserver'.trans hserver, hargs'.trans hargs, fun hw => hwait (hwait' hw)⟩

omit [Inhabited C] in
theorem CallsGrow.length_le {l l' : List (AppendCall n C)} (h : CallsGrow l l') :
    l.length ≤ l'.length := by
  by_contra hlt
  have hq := List.getElem?_eq_getElem (l := l) (i := l'.length) (by omega)
  obtain ⟨call', hq', -⟩ := h _ _ hq
  obtain ⟨hlt', -⟩ := List.getElem?_eq_some_iff.mp hq'
  omega

omit [Inhabited C] in
/-- A call returns. -/
theorem CallsGrow.set {l : List (AppendCall n C)} {k : ℕ} {call : AppendCall n C}
    (hk : l[k]? = some call) : CallsGrow l (l.set k { call with waiting := false }) := by
  intro q call' hq
  by_cases hkq : k = q
  · subst hkq
    obtain rfl := Option.some.inj (hk.symm.trans hq)
    obtain ⟨hlt, -⟩ := List.getElem?_eq_some_iff.mp hk
    exact ⟨_, List.getElem?_set_self hlt, rfl, rfl, fun h => by cases h⟩
  · exact ⟨call', by rw [List.getElem?_set_ne hkq, hq], rfl, rfl, id⟩

omit [Inhabited C] in
/-- The calls of a reigning server after a step. -/
theorem LeadMove.callsGrow (h : LeadMove c s a rf) : CallsGrow (c.nodes s).appends rf.appends := by
  cases h with
  | rest a rf h hno =>
      rw [h.appends]
      exact .refl _
  | send k server i prev hnext hprev =>
      intro q call hq
      refine ⟨call, ?_, rfl, rfl, id⟩
      obtain ⟨hlt, -⟩ := List.getElem?_eq_some_iff.mp hq
      exact (List.getElem?_append_left hlt).trans hq
  | success m k reply call hm hcall hwait hsuccess =>
      obtain ⟨ni, mi, ci, ap, hshape⟩ :=
        ((c.nodes s).callDone k call).matched_shape call.server call.args
      rw [hshape]
      exact .set hcall
  | backoff m k reply call i hm hcall hwait hfail hterm hi => exact .set hcall
  | accept m src e k args hm =>
      rw [(Raft.accepted_core (c.nodes s) args).2.2.2.2.1]
      exact .refl _
  | append k p hp => exact .refl _

omit [Inhabited C] in
/-- A new call is made for `nextIndex`, with the rest of the log. -/
theorem LeadMove.sent (h : LeadMove c s a rf) {q : ℕ} {call : AppendCall n C}
    (hold : (c.nodes s).appends.length ≤ q) (hq : rf.appends[q]? = some call) :
    q = (c.nodes s).appends.length ∧ ∃ i prev, (c.nodes s).nextIndex call.server = i + 1 ∧
      (c.nodes s).logs[i]? = some prev ∧ call.args = (c.nodes s).appendArgs i prev := by
  have hnone : (c.nodes s).appends[q]? = none := List.getElem?_eq_none_iff.mpr hold
  have hset : ∀ {k : ℕ} {call' : AppendCall n C}, (c.nodes s).appends.set k call' = rf.appends →
      False := by
    intro k call' heq
    rw [← heq] at hq
    obtain ⟨hlt, -⟩ := List.getElem?_eq_some_iff.mp hq
    rw [List.length_set] at hlt
    omega
  cases h with
  | rest a rf h hno =>
      rw [h.appends, hnone] at hq
      cases hq
  | send k server i prev hnext hprev =>
      have hq' : ((c.nodes s).appends ++ [⟨server, (c.nodes s).appendArgs i prev, true⟩])[q]?
          = some call := hq
      rw [List.getElem?_append_right hold] at hq'
      obtain ⟨hlt, hget⟩ := List.getElem?_eq_some_iff.mp hq'
      have hqeq : q = (c.nodes s).appends.length := by
        rw [List.length_singleton] at hlt
        omega
      obtain rfl := List.mem_singleton.mp (List.mem_of_getElem? hq')
      exact ⟨hqeq, i, prev, hnext, hprev, rfl⟩
  | success m k reply call' hm hcall hwait hsuccess =>
      obtain ⟨ni, mi, ci, ap, hshape⟩ :=
        ((c.nodes s).callDone k call').matched_shape call'.server call'.args
      rw [hshape] at hset
      exact (hset rfl).elim
  | backoff m k reply call' i hm hcall hwait hfail hterm hi => exact (hset rfl).elim
  | accept m src e k args hm =>
      rw [(Raft.accepted_core (c.nodes s) args).2.2.2.2.1, hnone] at hq
      cases hq
  | append k p hp =>
      rw [show (((c.nodes s).startDone k).startAppend p).1.appends = (c.nodes s).appends from rfl,
        hnone] at hq
      cases hq

/-- A call of `s` returns with `reply`: with success, which records the match and counts, or
with a rejection that moves `nextIndex` back. -/
structure Returned (c : Cluster n C) (s : Fin n) (rf : Raft C s) (e q : ℕ) (f : Fin n)
    (reply : AppendEntriesReply) (call : AppendCall n C) : Prop where
  epoch : e = (c.nodes s).epoch
  made : (c.nodes s).appends[q]? = some call
  server : call.server = f
  waiting : call.waiting = true
  done : rf.appends[q]? = some { call with waiting := false }
  result : reply.success = true ∧ rf = ((c.nodes s).callDone q call).matched f call.args ∨
    reply.success = false ∧ reply.term ≤ (c.nodes s).currentTerm ∧
      ∃ i, (i = reply.conflictIndex ∨ 1 ≤ i ∧ i ≤ call.args.prevLogIndex) ∧
        rf = { (c.nodes s).callDone q call with
          nextIndex := Function.update (c.nodes s).nextIndex f i }

omit [Inhabited C] in
/-- **A reply to a call of a reigning server makes this call return.** -/
theorem LeadMove.returned {m : ℕ} (h : LeadMove c s (.deliver m) rf) {e q : ℕ} {f : Fin n}
    {reply : AppendEntriesReply}
    (hm : c.net[m]? = some (.appendEntriesReply s e q f reply)) :
    ∃ call, Returned c s rf e q f reply call := by
  cases h with
  | rest a rf h hno => exact absurd hm (hno m e q f reply rfl)
  | success m q' reply' call hm' hcall hwait hsuccess =>
      rw [hm] at hm'
      simp only [Option.some.injEq, Msg.appendEntriesReply.injEq, true_and] at hm'
      obtain ⟨hepoch, rfl, rfl, rfl⟩ := hm'
      refine ⟨call, hepoch, hcall, rfl, hwait, ?_, .inl ⟨hsuccess, rfl⟩⟩
      obtain ⟨ni, mi, ci, ap, hshape⟩ :=
        ((c.nodes s).callDone q call).matched_shape call.server call.args
      rw [hshape]
      exact List.getElem?_set_self (List.getElem?_eq_some_iff.mp hcall).1
  | backoff m q' reply' call i hm' hcall hwait hfail hterm hi =>
      rw [hm] at hm'
      simp only [Option.some.injEq, Msg.appendEntriesReply.injEq, true_and] at hm'
      obtain ⟨hepoch, rfl, rfl, rfl⟩ := hm'
      exact ⟨call, hepoch, hcall, rfl, hwait,
        List.getElem?_set_self (List.getElem?_eq_some_iff.mp hcall).1,
        .inr ⟨hfail, hterm, i, hi, rfl⟩⟩
  | accept m src e' k args hm' =>
      rw [hm] at hm'
      cases hm'

omit [Inhabited C] in
/-- What the leader knows of a peer changes only when a call to this peer returns. -/
theorem LeadMove.indices_eq (h : LeadMove c s a rf) {f : Fin n} (hf : f ≠ s)
    (hno : ∀ m e q reply, a = .deliver m →
      c.net[m]? ≠ some (.appendEntriesReply s e q f reply)) :
    rf.nextIndex f = (c.nodes s).nextIndex f ∧ rf.matchIndex f = (c.nodes s).matchIndex f := by
  cases h with
  | rest a rf h hno' => rw [h.nextIndex, h.matchIndex]; exact ⟨rfl, rfl⟩
  | send k server i prev hnext hprev => exact ⟨rfl, rfl⟩
  | success m q reply call hm hcall hwait hsuccess =>
      have hne : f ≠ call.server := by
        rintro rfl
        exact hno m _ q reply rfl hm
      obtain ⟨hnext, hmatch⟩ :=
        ((c.nodes s).callDone q call).matched_indices call.server call.args
      rw [hnext, hmatch, Function.update_of_ne hne, Function.update_of_ne hne]
      exact ⟨rfl, rfl⟩
  | backoff m q reply call i hm hcall hwait hfail hterm hi =>
      have hne : f ≠ call.server := by
        rintro rfl
        exact hno m _ q reply rfl hm
      exact ⟨Function.update_of_ne hne _ _, rfl⟩
  | accept m src e k args hm =>
      obtain ⟨hnext, hmatch, -⟩ := (c.nodes s).accepted_indices args
      rw [hnext, hmatch]
      exact ⟨rfl, rfl⟩
  | append k p hp =>
      exact ⟨Function.update_of_ne hf _ _, Function.update_of_ne hf _ _⟩

omit [Inhabited C] in
/-- The commit index of a reigning server moves forward, inside the log. -/
theorem LeadMove.le_commitIndex (h : LeadMove c s a rf) {i : ℕ}
    (hi : i ≤ (c.nodes s).commitIndex) (hlen : i < rf.logs.length) : i ≤ rf.commitIndex := by
  cases h with
  | rest a rf h hno => rw [h.commitIndex]; exact hi
  | send k server j prev hnext hprev => exact hi
  | success m q reply call hm hcall hwait hsuccess =>
      rcases ((c.nodes s).callDone q call).matched_commit call.server call.args with
        ⟨hcommit, -⟩ | ⟨j, hscan, hcommit, -⟩
      · rw [hcommit]
        exact hi
      · rw [hcommit]
        exact hi.trans (Raft.commitScan_some hscan).1.le
  | backoff m q reply call j hm hcall hwait hfail hterm hj => exact hi
  | accept m src e k args hm =>
      rw [(Raft.accepted_core (c.nodes s) args).2.2.2.2.2] at hlen
      rw [Raft.accepted_commitIndex]
      split_ifs with hlt
      · omega
      · exact hi
  | append k p hp => exact hi

omit [Inhabited C] in
/-- The match that a reigning server has recorded for itself moves forward. -/
theorem LeadMove.le_matchIndex_self (h : LeadMove c s a rf)
    (hcalls : ∀ call ∈ (c.nodes s).appends, call.server ≠ s) {i : ℕ}
    (hi : i ≤ (c.nodes s).matchIndex s) (hlen : i < (c.nodes s).logs.length) :
    i ≤ rf.matchIndex s := by
  cases h with
  | rest a rf h hno => rw [h.matchIndex]; exact hi
  | send k server j prev hnext hprev => exact hi
  | success m q reply call hm hcall hwait hsuccess =>
      have hne := hcalls call (List.mem_of_getElem? hcall)
      rw [(((c.nodes s).callDone q call).matched_indices call.server call.args).2,
        Function.update_of_ne hne.symm]
      exact hi
  | backoff m q reply call j hm hcall hwait hfail hterm hj => exact hi
  | accept m src e k args hm =>
      rw [((c.nodes s).accepted_indices args).2.1]
      exact hi
  | append k p hp =>
      show i ≤ Function.update (c.nodes s).matchIndex s (c.nodes s).logs.length s
      rw [Function.update_self]
      exact hlen.le

/-! ## Replies and requests -/

/-- A new reply to an append request has been computed in the step. -/
theorem answer_of_step (h : c.step a = some c') {src dst : Fin n} {e q : ℕ}
    {reply : AppendEntriesReply} (hmem : .appendEntriesReply src e q dst reply ∈ c'.net) :
    .appendEntriesReply src e q dst reply ∈ c.net ∨
      ∃ args, .appendEntries src e q dst args ∈ c.net ∧
        (c.nodes dst).appendEntries args = .ok (c'.nodes dst, reply) := by
  by_cases hreq : ∃ m src e k dst args, a = .deliver m ∧
      c.net[m]? = some (.appendEntries src e k dst args)
  · obtain ⟨m, src', e', k', dst', args, rfl, hm⟩ := hreq
    obtain ⟨msg, hm', hreceive⟩ := step_deliver h
    obtain rfl := Option.some.inj (hm.symm.trans hm')
    obtain rfl : _ = c' := Option.some.inj hreceive
    rcases mem_finish_net (.appendEntriesReply src' e' k' dst') (fun _ => []) hmem with
      hold | ⟨reply', heq, hresult⟩
    · exact .inl hold
    · obtain ⟨rfl, rfl, rfl, rfl, rfl⟩ := Msg.appendEntriesReply.inj heq
      exact .inr ⟨args, List.mem_of_getElem? hm, hresult⟩
  · obtain ⟨s, rf, msgs, events, rfl, hmove⟩ := step_move h
    rcases List.mem_append.mp hmem with hold | hnew
    · exact .inl hold
    · exfalso
      cases hmove with
      | appendStale m src' e' k dst' args hm hterm => exact hreq ⟨m, _, _, _, _, _, rfl, hm⟩
      | appendReject m src' e' k dst' args reply' hm hterm hreply hreplyTerm =>
          exact hreq ⟨m, _, _, _, _, _, rfl, hm⟩
      | appendAccept m src' e' k dst' args prev hm hterm hprev hprevTerm =>
          exact hreq ⟨m, _, _, _, _, _, rfl, hm⟩
      | _ => simp at hnew

/-- Every reply on the network answers a request on the network, and a rejection names an
index up to the previous entry of the request. -/
structure ReplyInv (c : Cluster n C) : Prop where
  request : ∀ {src e q dst reply}, .appendEntriesReply src e q dst reply ∈ c.net →
    ∃ args, .appendEntries src e q dst args ∈ c.net ∧
      (reply.success = false → reply.conflictIndex ≤ args.prevLogIndex)

theorem replyInv_init : ReplyInv (Cluster.init n C) where
  request := by intro src e q dst reply h; simp [init] at h

theorem ReplyInv.step (hi : ReplyInv c) (h : c.step a = some c') : ReplyInv c' := by
  constructor
  intro src e q dst reply hmem
  have hnet : ∀ msg ∈ c.net, msg ∈ c'.net := by
    obtain ⟨s, rf, msgs, events, rfl, -⟩ := step_move h
    exact fun msg hmsg => List.mem_append_left _ hmsg
  rcases answer_of_step h hmem with hold | ⟨args, hargs, hanswer⟩
  · obtain ⟨args, hargs, hbound⟩ := hi.request hold
    exact ⟨args, hnet _ hargs, hbound⟩
  · exact ⟨args, hnet _ hargs, Raft.conflictIndex_le hanswer⟩

/-- Heartbeats and append calls are for other peers. -/
structure BeatInv (c : Cluster n C) : Prop where
  beats : ∀ {s p}, p ∈ (c.nodes s).heartbeats → p ≠ s
  calls : ∀ {s call}, call ∈ (c.nodes s).appends → call.server ≠ s

theorem beatInv_init : BeatInv (Cluster.init n C) where
  beats := by intro s p h; simp [init, Raft.make, Raft.readPersist] at h
  calls := by intro s call h; simp [init, Raft.make, Raft.readPersist] at h

omit [Inhabited C] in
/-- The heartbeats and the calls of the server that moves. -/
theorem BeatInv.put (hi : BeatInv c) (hmove : IndexMove c a s rf msgs) :
    (∀ p ∈ rf.heartbeats, p ≠ s) ∧ ∀ call ∈ rf.appends, call.server ≠ s := by
  refine ⟨hmove.beats fun p => hi.beats, ?_⟩
  have hsteady : ∀ {t : Fin n} {rf : Raft C t}, Steady c t rf →
      ∀ call ∈ rf.appends, call.server ≠ t := by
    intro t rf hst call hcall
    obtain ⟨k, hk⟩ := List.mem_iff_getElem?.mp hcall
    obtain ⟨call', hk', hserver, -⟩ := hst.calls.call hk
    rw [hserver]
    exact hi.calls (List.mem_of_getElem? hk')
  cases hmove with
  | steady a s rf msgs hst hnext hmsgs => exact hsteady hst
  | reboot a s rf hlogs hstate happends hbeats =>
      rw [happends]
      exact fun call hcall => by simp at hcall
  | elect m s rf hstate hterm hlogs hnext happends hbeats =>
      rw [happends]
      exact fun call => hi.calls
  | send s k server i prev hbeat hstate hprev =>
      intro call hcall
      rcases List.mem_append.mp hcall with hold | hnew
      · exact hi.calls hold
      · rw [List.mem_singleton.mp hnew]
        exact hi.beats (List.mem_of_getElem? hbeat)
  | reject m src e k dst args reply rf hm hst hnext hreject => exact hsteady hst
  | accept m src e k dst args prev hm hterm hprev =>
      rw [(Raft.accepted_core (c.nodes s) args).2.2.2.2.1]
      exact fun call => hi.calls
  | answer m s k reply call rf i hm hcall hst hnext hi' => exact hsteady hst
  | append s k q hq => exact fun call => hi.calls

theorem BeatInv.step (hi : BeatInv c) (hvotes : VoteInv c) (hne : ∀ s, (c.nodes s).logs ≠ [])
    (hok : c.SoundElection a) (h : c.step a = some c') : BeatInv c' := by
  obtain ⟨s, rf, msgs, events, rfl, hmove⟩ := step_indexMoves hvotes hne hok h
  have hput : ∀ t, (∀ p ∈ ((c.put s rf msgs events).nodes t).heartbeats, p ≠ t) ∧
      ∀ call ∈ ((c.put s rf msgs events).nodes t).appends, call.server ≠ t :=
    (forall_put (P := fun t node => (∀ p ∈ node.heartbeats, p ≠ t) ∧
      ∀ call ∈ node.appends, call.server ≠ t)).mpr
      ⟨hi.put hmove, fun t _ => ⟨fun p => hi.beats, fun call => hi.calls⟩⟩
  exact ⟨fun {t p} => (hput t).1 p, fun {t call} => (hput t).2 call⟩

end Cluster

end Mit6824
