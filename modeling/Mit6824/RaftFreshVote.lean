/-
# When `votedFor` is a vote of the current term

The term of a server rises in five places, and each of them relies on
`convertTo(Follower)` to forget the vote of the old term.  `convertTo` returns at
once when the server is a follower already, so the vote stays, and it is read as a
vote of the new term.

* `VoteMove` says what a step does to the term and the vote of a server: both stay,
  a newer term is observed, or the server votes.  It is exact for the delivery of a
  message: a follower that gets a message of a newer term either grants it or keeps
  its old vote in the new term.
* A run in which no follower with a vote observes a newer term without voting
  (`FreshVote`) has only votes of the current term, and no other run has
  (`votedFor_current_iff`).
* `staleVote` is a run in which a server refuses the only candidate of a term in
  which it never voted.
-/
import Mit6824.RaftHandlers

namespace Mit6824

/-! ## What a message does to a follower -/

/-- The server whose state a message reaches. -/
def Msg.receiver {n : ℕ} {C : Type} : Msg n C → Fin n
  | .requestVote _ _ _ dst _ => dst
  | .requestVoteReply src _ _ _ _ => src
  | .appendEntries _ _ _ dst _ => dst
  | .appendEntriesReply src _ _ _ _ => src

/-- The term that the receiver compares with its own; a successful append reply
carries none. -/
def Msg.newTerm {n : ℕ} {C : Type} : Msg n C → ℕ
  | .requestVote _ _ _ _ args => args.term
  | .requestVoteReply _ _ _ _ reply => reply.term
  | .appendEntries _ _ _ _ args => args.term
  | .appendEntriesReply _ _ _ _ reply => if reply.success then 0 else reply.term

namespace Raft

variable {n : ℕ} {C : Type} {me : Fin n} {rf : Raft C me}

/-- The log of the candidate is behind the log of the server. -/
def Behind (rf : Raft C me) (args : RequestVoteArgs n) : Prop :=
  ∃ last ∈ rf.logs[rf.logs.length - 1]?, args.lastLogTerm < last.term ∨
    (args.lastLogTerm = last.term ∧ args.lastLogIndex < rf.logs.length - 1)

instance (rf : Raft C me) (args : RequestVoteArgs n) : Decidable (rf.Behind args) :=
  inferInstanceAs (Decidable (∃ last ∈ rf.logs[rf.logs.length - 1]?, _))

/-- `RequestVote` after its first test, on a log that is not empty. -/
theorem requestVote_of_not_refusesVote {args : RequestVoteArgs n} (hne : rf.logs ≠ [])
    (h : ¬ rf.refusesVote args) : rf.requestVote args =
      if rf.Behind args then .ok ((rf.observeTerm args.term).persist, ⟨args.term, false⟩)
      else .ok (rf.granted args, ⟨args.term, true⟩) := by
  have hpos : 0 < rf.logs.length := List.length_pos_of_ne_nil hne
  have hlast := List.getElem?_eq_getElem (show rf.logs.length - 1 < rf.logs.length by omega)
  have hiff : rf.Behind args ↔ args.lastLogTerm < rf.logs[rf.logs.length - 1].term ∨
      (args.lastLogTerm = rf.logs[rf.logs.length - 1].term ∧
        args.lastLogIndex < rf.logs.length - 1) := by
    unfold Behind
    rw [hlast]
    simp
  rw [requestVote_eq h hlast]
  by_cases hb : rf.Behind args
  · rw [if_pos hb, if_pos (hiff.mp hb)]
  · rw [if_neg hb, if_neg (mt hiff.mpr hb)]

/-- Observing a newer term clears the vote, except on a follower. -/
theorem observeTerm_votedFor {t : ℕ} (h : rf.currentTerm < t) :
    (rf.observeTerm t).votedFor = if rf.state = .follower then rf.votedFor else none := by
  unfold observeTerm convertToFollower
  rw [if_pos h]
  split_ifs
  · rfl
  · rfl

end Raft

namespace Cluster

variable {n : ℕ} {C : Type} {c c' : Cluster n C} {a : Action n C} {s : Fin n}

/-- The message is a vote request of a candidate that is not behind. -/
def GrantsVote (c : Cluster n C) : Msg n C → Prop
  | .requestVote _ _ _ dst args => ¬ (c.nodes dst).Behind args
  | _ => False

instance (c : Cluster n C) (msg : Msg n C) : Decidable (c.GrantsVote msg) := by
  cases msg <;> unfold GrantsVote <;> infer_instance

/-- The message is of a newer term than its receiver, which is a follower. -/
def RaisesFollower (c : Cluster n C) (msg : Msg n C) : Prop :=
  (c.nodes msg.receiver).state = .follower ∧ (c.nodes msg.receiver).currentTerm < msg.newTerm

instance (c : Cluster n C) (msg : Msg n C) : Decidable (c.RaisesFollower msg) :=
  inferInstanceAs (Decidable (_ ∧ _))

/-- A follower that has voted goes to a newer term only by voting in it. -/
def FreshVote (c : Cluster n C) : Action n C → Prop :=
  c.Delivers fun msg => c.RaisesFollower msg →
    (c.nodes msg.receiver).votedFor ≠ none → c.GrantsVote msg

instance (c : Cluster n C) (a : Action n C) : Decidable (c.FreshVote a) :=
  inferInstanceAs (Decidable (c.Delivers _ a))

/-! ## What a step does to the vote -/

/-- What a step does to the term and the vote of the server that takes it. -/
inductive VoteMove (c : Cluster n C) :
    Action n C → (s : Fin n) → Raft C s → List (Event n C) → Prop where
  /-- Both stay; in particular no follower has got a message of a newer term. -/
  | keep (a : Action n C) (s : Fin n) (rf : Raft C s) (events : List (Event n C))
      (hterm : rf.currentTerm = (c.nodes s).currentTerm)
      (hvote : rf.votedFor = (c.nodes s).votedFor)
      (hold : ∀ m msg, a = .deliver m → c.net[m]? = some msg → ¬ c.RaisesFollower msg) :
      VoteMove c a s rf events
  /-- The term of a message is observed, and there is no vote. -/
  | observe (m : ℕ) (msg : Msg n C) (rf : Raft C msg.receiver) (hm : c.net[m]? = some msg)
      (hgrant : ¬ c.GrantsVote msg)
      (hterm : (c.nodes msg.receiver).currentTerm < msg.newTerm)
      (hnew : rf.currentTerm = msg.newTerm)
      (hvote : rf.votedFor = ((c.nodes msg.receiver).observeTerm msg.newTerm).votedFor) :
      VoteMove c (.deliver m) msg.receiver rf []
  /-- The server votes for itself. -/
  | ballot (s : Fin n) (rf : Raft C s) (e k : ℕ) (hvote : rf.votedFor = some s) :
      VoteMove c (.electionTimeout s) s rf [.ballot s e k rf.currentTerm]
  /-- The server grants a request. -/
  | grant (m : ℕ) (msg : Msg n C) (rf : Raft C msg.receiver) (x : Fin n)
      (hm : c.net[m]? = some msg) (hgrant : c.GrantsVote msg) (hvote : rf.votedFor = some x) :
      VoteMove c (.deliver m) msg.receiver rf [.granted msg.receiver rf.currentTerm x]

/-- A step of `c` with action `a` leads to `c'` by such a move. -/
def VoteMoves (c : Cluster n C) (a : Action n C) (c' : Cluster n C) : Prop :=
  ∃ (s : Fin n) (rf : Raft C s) (msgs : List (Msg n C)) (events : List (Event n C)),
    c' = c.put s rf msgs events ∧ VoteMove c a s rf events

/-- A delivery that keeps term and vote, where the message at hand raises no follower. -/
theorem VoteMove.kept {m : ℕ} {msg : Msg n C} {rf : Raft C s} {events : List (Event n C)}
    (hm : c.net[m]? = some msg) (hterm : rf.currentTerm = (c.nodes s).currentTerm)
    (hvote : rf.votedFor = (c.nodes s).votedFor) (hraise : ¬ c.RaisesFollower msg) :
    VoteMove c (.deliver m) s rf events := by
  refine .keep _ s rf events hterm hvote ?_
  intro m' msg' hm' hmsg'
  obtain rfl : m = m' := Action.deliver.inj hm'
  obtain rfl : msg = msg' := Option.some.inj (hm.symm.trans hmsg')
  exact hraise

/-- The outcomes of a handler that goes through `observeTerm` without voting. -/
theorem VoteMove.observed {m : ℕ} {msg : Msg n C} {rf : Raft C msg.receiver}
    (hm : c.net[m]? = some msg) (hgrant : ¬ c.GrantsVote msg)
    (hterm : rf.currentTerm = ((c.nodes msg.receiver).observeTerm msg.newTerm).currentTerm)
    (hvote : rf.votedFor = ((c.nodes msg.receiver).observeTerm msg.newTerm).votedFor) :
    VoteMove c (.deliver m) msg.receiver rf [] := by
  rcases Nat.lt_or_ge (c.nodes msg.receiver).currentTerm msg.newTerm with hlt | hge
  · rw [Raft.observeTerm_currentTerm, max_eq_right hlt.le] at hterm
    exact .observe m msg rf hm hgrant hlt hterm hvote
  · rw [Raft.observeTerm_of_le hge] at hterm hvote
    exact .kept hm hterm hvote fun h => absurd h.2 (not_lt.mpr hge)

variable [Inhabited C]

/-- Delivery of a vote request. -/
theorem voteMoves_requestVote (hi : GroundInv c) {m : ℕ} {src dst : Fin n} {e k : ℕ}
    {args : RequestVoteArgs n} (hm : c.net[m]? = some (.requestVote src e k dst args))
    (h : c.receive (.requestVote src e k dst args) = some c') : VoteMoves c (.deliver m) c' := by
  obtain rfl : _ = c' := Option.some.inj h
  by_cases hr : (c.nodes dst).refusesVote args
  · have heq : (c.nodes dst).requestVote args
        = .ok ((c.nodes dst).persist, ⟨(c.nodes dst).currentTerm, false⟩) := if_pos hr
    rw [heq]
    refine ⟨dst, _, _, _, rfl, .kept hm rfl rfl ?_⟩
    -- a request of a newer term passes the first test
    rintro ⟨-, hlt⟩
    have hlt' : (c.nodes dst).currentTerm < args.term := hlt
    rcases hr with hstale | ⟨heq, -⟩ <;> omega
  · rw [Raft.requestVote_of_not_refusesVote (hi.logs_ne_nil dst) hr]
    split_ifs with hb
    · exact ⟨dst, _, _, _, rfl, .observed hm (fun hgrant => hgrant hb) rfl rfl⟩
    · have hterm : ((c.nodes dst).granted args).currentTerm = args.term := by
        show ((c.nodes dst).observeTerm args.term).currentTerm = _
        rw [Raft.observeTerm_currentTerm, max_eq_right (Raft.le_of_not_refusesVote hr)]
      have hmove := VoteMove.grant m _ ((c.nodes dst).granted args) args.candidateId hm hb rfl
      rw [hterm] at hmove
      exact ⟨dst, _, _, _, rfl, hmove⟩

/-- Delivery of a vote reply. -/
theorem voteMoves_requestVoteReply {m : ℕ} {src dst : Fin n} {e k : ℕ}
    {reply : RequestVoteReply} (hm : c.net[m]? = some (.requestVoteReply src e k dst reply))
    (h : c.receive (.requestVoteReply src e k dst reply) = some c') :
    VoteMoves c (.deliver m) c' := by
  obtain ⟨rfl, round, hround, _, rfl⟩ := receive_requestVoteReply h
  rw [Raft.voteReply_eq hround]
  by_cases hg : reply.voteGranted ∧ (c.nodes src).state = .candidate
  · rw [if_pos hg]
    have hraise : ¬ c.RaisesFollower (.requestVoteReply src (c.nodes src).epoch k dst reply) := by
      rintro ⟨hstate, -⟩
      have hstate' : (c.nodes src).state = .follower := hstate
      rw [hg.2] at hstate'
      cases hstate'
    split_ifs
    · exact ⟨src, _, _, _, rfl, .kept hm rfl rfl hraise⟩
    · exact ⟨src, _, _, _, rfl, .kept hm rfl rfl hraise⟩
  · rw [if_neg hg]
    split_ifs with ht
    · refine ⟨src, _, _, _, rfl, .observe m _ _ hm id ht ?_ ?_⟩
      · rw [Raft.persist_currentTerm, Raft.observeTerm_currentTerm]
        exact max_eq_right ht.le
      · have hvote : (((c.nodes src).answered k round dst 0).observeTerm reply.term).votedFor
            = if (c.nodes src).state = .follower then (c.nodes src).votedFor else none :=
          Raft.observeTerm_votedFor ht
        exact hvote.trans (Raft.observeTerm_votedFor ht).symm
    · exact ⟨src, _, _, _, rfl, .kept hm rfl rfl fun hraise => ht hraise.2⟩

/-- Delivery of an append request. -/
theorem voteMoves_appendEntries (hi : GroundInv c) {m : ℕ} {src dst : Fin n} {e k : ℕ}
    {args : AppendEntriesArgs n C} (hm : c.net[m]? = some (.appendEntries src e k dst args))
    (h : c.receive (.appendEntries src e k dst args) = some c') :
    VoteMoves c (.deliver m) c' := by
  obtain rfl : _ = c' := Option.some.inj h
  by_cases ht : args.term < (c.nodes dst).currentTerm
  · have heq : (c.nodes dst).appendEntries args
        = .ok ((c.nodes dst).persist, { term := (c.nodes dst).currentTerm }) := if_pos ht
    rw [heq]
    exact ⟨dst, _, _, _, rfl, .kept hm rfl rfl fun hraise => lt_asymm ht hraise.2⟩
  · have hle := not_lt.mp ht
    by_cases hacc : ∃ prev, (c.nodes dst).logs[args.prevLogIndex]? = some prev ∧
        prev.term = args.prevLogTerm
    · obtain ⟨prev, hprev, hp⟩ := hacc
      rw [Raft.appendEntries_eq hle hprev hp]
      refine ⟨dst, _, _, _, rfl, .observed hm id ?_ (Raft.accepted_core _ _).2.1⟩
      exact (Raft.accepted_currentTerm _ _).trans (Raft.observeTerm_currentTerm _ _).symm
    · push Not at hacc
      rcases Raft.appendEntries_of_mismatch hle hacc with ⟨reply, -, -, heq⟩ | herr
      · rw [heq]
        exact ⟨dst, _, _, _, rfl, .observed hm id rfl rfl⟩
      · -- the handler does not panic
        obtain ⟨out, hout⟩ := hi.appendEntries_ok (List.mem_of_getElem? hm)
        rw [hout] at herr
        cases herr

/-- Delivery of an append reply. -/
theorem voteMoves_appendEntriesReply (hv : VoteInv c) {m : ℕ} {src dst : Fin n} {e k : ℕ}
    {reply : AppendEntriesReply}
    (hm : c.net[m]? = some (.appendEntriesReply src e k dst reply))
    (h : c.receive (.appendEntriesReply src e k dst reply) = some c') :
    VoteMoves c (.deliver m) c' := by
  obtain ⟨rfl, call, hcall, rfl, rfl⟩ := receive_appendEntriesReply h
  by_cases hs : reply.success = true
  · have hzero : ¬ c.RaisesFollower
        (.appendEntriesReply src (c.nodes src).epoch k call.server reply) := by
      rintro ⟨-, hlt⟩
      simp [Msg.newTerm, hs] at hlt
    obtain ⟨ni, mi, ci, ap, hshape⟩ :=
      ((c.nodes src).callDone k call).matched_shape call.server call.args
    rw [Raft.appendReply_of_success hs, hshape]
    exact ⟨src, _, _, _, rfl, .kept hm rfl rfl hzero⟩
  · have hs' : reply.success = false := by simpa using hs
    have hnew : (Msg.appendEntriesReply (C := C) src (c.nodes src).epoch k call.server
        reply).newTerm = reply.term := by
      simp [Msg.newTerm, hs']
    by_cases ht : (c.nodes src).currentTerm < reply.term
    · rw [Raft.appendReply_of_higher ((c.nodes src).callDone k call) hs' ht]
      refine ⟨src, _, _, _, rfl, .observe m _ _ hm id (hnew ▸ ht) ?_ ?_⟩
      · rw [hnew, Raft.persist_currentTerm, Raft.observeTerm_currentTerm]
        exact max_eq_right ht.le
      · have hvote : (((c.nodes src).callDone k call).observeTerm reply.term).votedFor
            = if (c.nodes src).state = .follower then (c.nodes src).votedFor else none :=
          Raft.observeTerm_votedFor ht
        rw [hnew]
        exact hvote.trans (Raft.observeTerm_votedFor ht).symm
    · have hraise : ¬ c.RaisesFollower
          (.appendEntriesReply src (c.nodes src).epoch k call.server reply) := by
        rintro ⟨-, hlt⟩
        rw [hnew] at hlt
        exact ht hlt
      obtain ⟨next, hok | herr⟩ := Raft.appendReply_of_failure
        ((c.nodes src).callDone k call) call.server call.args hs' ht
      · rw [hok]
        exact ⟨src, _, _, _, rfl, .kept hm rfl rfl hraise⟩
      · rw [herr]
        -- the panic leaves the persister as it was
        obtain ⟨hterm, hvote, -⟩ := Raft.restart_of_synced (hv.synced src)
        exact ⟨src, _, _, _, rfl, .kept hm hterm hvote hraise⟩

/-- **Every step is a vote move.** -/
theorem step_voteMove (hv : VoteInv c) (hi : GroundInv c) (hstep : c.step a = some c') :
    VoteMoves c a c' := by
  -- away from timers and deliveries the general inversion says enough
  have hkeep : (∀ m, a ≠ .deliver m) → (∀ s, a ≠ .electionTimeout s) → VoteMoves c a c' := by
    intro hdeliver htimeout
    obtain ⟨s, rf, msgs, events, rfl, hmove⟩ := step_move hstep
    have hsame : rf.currentTerm = (c.nodes s).currentTerm ∧
        rf.votedFor = (c.nodes s).votedFor := by
      cases hmove with
      | crash => exact ⟨(Raft.restart_of_synced (hv.synced s)).1,
          (Raft.restart_of_synced (hv.synced s)).2.1⟩
      | campaignPanic => exact absurd rfl (htimeout s)
      | campaign => exact absurd rfl (htimeout s)
      | heartbeat =>
          obtain ⟨hb, hshape⟩ := (c.nodes s).heartbeatTimeout_shape
          rw [hshape]
          exact ⟨rfl, rfl⟩
      | heartbeatSkip => exact ⟨rfl, rfl⟩
      | heartbeatSend => exact ⟨rfl, rfl⟩
      | startRead s command =>
          obtain ⟨st, hshape⟩ := (c.nodes s).startRead_shape command
          rw [hshape]
          exact ⟨rfl, rfl⟩
      | startAppend => exact ⟨rfl, rfl⟩
      | applySend => exact ⟨rfl, rfl⟩
      | applyStore => exact ⟨rfl, rfl⟩
      | _ => exact absurd rfl (hdeliver _)
    exact ⟨s, rf, msgs, events, rfl, .keep a s rf events hsame.1 hsame.2
      fun m msg ha => absurd ha (hdeliver m)⟩
  cases a with
  | electionTimeout s =>
      obtain rfl : _ = c' := Option.some.inj hstep
      have hpos : 0 < (c.nodes s).logs.length := List.length_pos_of_ne_nil (hi.logs_ne_nil s)
      rw [Raft.electionTimeout_eq (c.nodes s) (List.getElem?_eq_getElem
        (show (c.nodes s).logs.length - 1 < (c.nodes s).logs.length by omega))]
      exact ⟨s, _, _, _, rfl, .ballot s ((c.nodes s).campaigned _) _ _ rfl⟩
  | deliver m =>
      obtain ⟨msg, hm, hreceive⟩ := Option.bind_eq_some_iff.mp hstep
      cases msg with
      | requestVote src e k dst args => exact voteMoves_requestVote hi hm hreceive
      | requestVoteReply src e k dst reply => exact voteMoves_requestVoteReply hm hreceive
      | appendEntries src e k dst args => exact voteMoves_appendEntries hi hm hreceive
      | appendEntriesReply src e k dst reply => exact voteMoves_appendEntriesReply hv hm hreceive
  | _ => exact hkeep (fun _ => by simp) (fun _ => by simp)

/-! ## Votes of the current term -/

/-- Every vote that a server remembers is a vote of its current term. -/
def VotesCurrent (c : Cluster n C) : Prop :=
  ∀ s x, (c.nodes s).votedFor = some x → c.Voted s (c.nodes s).currentTerm x

omit [Inhabited C] in
/-- A fresh step keeps the votes current. -/
theorem VotesCurrent.voteMoves (h : c.VotesCurrent) (hfresh : c.FreshVote a)
    (hmove : VoteMoves c a c') : c'.VotesCurrent := by
  obtain ⟨s, rf, msgs, events, rfl, hmove⟩ := hmove
  refine (forall_put (P := fun t node => ∀ x, node.votedFor = some x →
    (c.put s rf msgs events).Voted t node.currentTerm x)).mpr
      ⟨?_, fun t _ x hx => (h t x hx).put s rf msgs events⟩
  intro x hx
  cases hmove with
  | keep a s rf events hterm hvote hold =>
      rw [hvote] at hx
      rw [hterm]
      exact (h s x hx).put s rf msgs events
  | observe m msg rf hm hgrant hterm hnew hvote =>
      -- a vote that survives is one of a follower, and the step was not fresh
      rw [hvote, Raft.observeTerm_votedFor hterm] at hx
      split_ifs at hx with hstate
      exact absurd (hfresh m rfl msg hm ⟨hstate, hterm⟩ (by rw [hx]; simp)) hgrant
  | ballot s rf e k hvote =>
      obtain rfl : s = x := Option.some.inj (hvote.symm.trans hx)
      exact .inr ⟨rfl, e, k, by simp⟩
  | grant m msg rf y hm hgrant hvote =>
      obtain rfl : y = x := Option.some.inj (hvote.symm.trans hx)
      exact .inl (by simp)

/-- A step that is not fresh leaves a vote that is not current. -/
theorem fresh_of_votesCurrent (hv : VoteInv c) (hmove : VoteMoves c a c')
    (h : c'.VotesCurrent) : c.FreshVote a := by
  cases a with
  | deliver m =>
      rintro _ ⟨⟩ msg hm hraise hvoted
      obtain ⟨s, rf, msgs, events, rfl, hmove⟩ := hmove
      cases hmove with
      | keep _ _ _ _ hterm hvote hold => exact absurd hraise (hold m msg rfl hm)
      | observe _ msg' rf hm' hgrant hterm hnew hvote =>
          obtain rfl : msg = msg' := Option.some.inj (hm.symm.trans hm')
          obtain ⟨x, hx⟩ := Option.ne_none_iff_exists'.mp hvoted
          -- the old vote is still there, and the history has no vote of the new term
          have hx' : rf.votedFor = some x := by
            rw [hvote, Raft.observeTerm_votedFor hterm, if_pos hraise.1, hx]
          have hnode := put_nodes_self c msg.receiver rf msgs []
          have hnow := h msg.receiver x (by rw [hnode]; exact hx')
          rw [hnode, hnew] at hnow
          have hbefore : c.Voted msg.receiver msg.newTerm x := by
            unfold Voted at hnow ⊢
            rwa [put_history, List.append_nil] at hnow
          rcases hv.voted hbefore with hlt | ⟨heq, -⟩ <;> omega
      | grant _ msg' rf x hm' hgrant hvote =>
          obtain rfl : msg = msg' := Option.some.inj (hm.symm.trans hm')
          exact hgrant
  | _ =>
      intro m hm
      cases hm

end Cluster

/-! ## Whole runs -/

section Runs

variable {n : ℕ} {C : Type} [Inhabited C]

/-- **Exactly the fresh runs have only votes of the current term**: at every moment,
whoever a server remembers in `votedFor` got its vote in its current term; and then it
refuses an up-to-date candidate of that term only if it has voted for another one. -/
theorem votedFor_current_iff (r : (raftSystem n C).Run) :
    ((∀ k s x, ((r.state k).nodes s).votedFor = some x →
        (r.state k).Voted s ((r.state k).nodes s).currentTerm x) ∧
      (∀ k s args rf reply, args.term = ((r.state k).nodes s).currentTerm →
        ¬ ((r.state k).nodes s).Behind args →
        ((r.state k).nodes s).requestVote args = .ok (rf, reply) → reply.voteGranted = false →
        ∃ x, x ≠ args.candidateId ∧ (r.state k).Voted s ((r.state k).nodes s).currentTerm x)) ↔
    r.Meets Cluster.FreshVote := by
  have hmoves : ∀ k a, r.act k = some a →
      Cluster.VoteMoves (r.state k) a (r.state (k + 1)) := fun k a ha =>
    Cluster.step_voteMove (voteInv_run r k) (groundInv_run r k) (r.taken k a ha)
  constructor
  · rintro ⟨hcurrent, -⟩ k a ha
    exact Cluster.fresh_of_votesCurrent (voteInv_run r k) (hmoves k a ha) (hcurrent (k + 1))
  · intro hfresh
    have hcurrent : ∀ k, (r.state k).VotesCurrent := by
      intro k
      induction k with
      | zero =>
          rw [r.state_zero]
          intro s x hx
          cases hx
      | succ k ih =>
          rcases ha : r.act k with _ | a
          · rw [r.idle k ha]
            exact ih
          · exact ih.voteMoves (hfresh k a ha) (hmoves k a ha)
    refine ⟨hcurrent, fun k s args rf reply hterm hbehind hreply hrefused => ?_⟩
    by_cases hr : ((r.state k).nodes s).refusesVote args
    · -- the term is the current one, so the vote is taken
      rcases hr with hstale | ⟨-, hvoted, hother⟩
      · omega
      · obtain ⟨x, hx⟩ := Option.ne_none_iff_exists'.mp hvoted
        refine ⟨x, fun heq => hother (by rw [hx, heq]), hcurrent k s x hx⟩
    · rw [Raft.requestVote_of_not_refusesVote ((groundInv_run r k).logs_ne_nil s) hr,
        if_neg hbehind] at hreply
      cases hreply
      cases hrefused

/-- Server `1` votes for server `0` in term `2`.  It learns of term `3` from the reply
to its own old request of term `1`, and keeps the vote; so it refuses server `2`, the
only candidate of term `3`. -/
def staleVote : (raftSystem 3 ℕ).Run :=
  (raftSystem 3 ℕ).ofList
    [.electionTimeout 1, .electionTimeout 0, .electionTimeout 0, .deliver 4,
      .electionTimeout 2, .electionTimeout 2, .electionTimeout 2, .deliver 1, .deliver 13,
      .deliver 12]

/-- In this run server `1` is in term `3` with a vote for server `0`, it has voted for
nobody in term `3`, and it has refused the up-to-date candidate of that term. -/
theorem staleVote_refuses :
    ((staleVote.state 9).nodes 1).currentTerm = 3 ∧
    ((staleVote.state 9).nodes 1).votedFor = some 0 ∧
    (∀ x, ¬ (staleVote.state 9).Voted 1 3 x) ∧
    (staleVote.state 9).net[12]? = some (.requestVote 2 0 2 1 ⟨3, 2, 0, 0⟩) ∧
    ¬ ((staleVote.state 9).nodes 1).Behind ⟨3, 2, 0, 0⟩ ∧
    .requestVoteReply 2 0 2 1 ⟨3, false⟩ ∈ (staleVote.state 10).net := by
  have hhistory : (staleVote.state 9).history =
      [.ballot 1 0 0 1, .ballot 0 0 0 1, .ballot 0 0 1 2, .granted 1 2 0, .ballot 2 0 0 1,
        .ballot 2 0 1 2, .ballot 2 0 2 3] := by decide
  refine ⟨by decide, by decide, ?_, by decide, by decide, by decide⟩
  intro x hx
  unfold Cluster.Voted at hx
  rw [hhistory] at hx
  simp at hx

/-- So a remembered vote need not be a vote of the current term. -/
theorem votedFor_not_current :
    ¬ ∀ (r : (raftSystem 3 ℕ).Run) (k : ℕ) (s x : Fin 3),
      ((r.state k).nodes s).votedFor = some x →
      (r.state k).Voted s ((r.state k).nodes s).currentTerm x := by
  intro h
  obtain ⟨hterm, hvote, hnone, -⟩ := staleVote_refuses
  have hvoted := h staleVote 9 1 0 hvote
  rw [hterm] at hvoted
  exact hnone 0 hvoted

end Runs

end Mit6824
