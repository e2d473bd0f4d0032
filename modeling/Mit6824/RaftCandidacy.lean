/-
# Who wins an election

Liveness of the elections.  An expired election timer opens a round: one goroutine for each
peer, and a counter that they share.  Suppose that the server then stays in the term of the
round and does not restart (`Candidacy`), that the peers of some set answer it, and that this
set is a majority together with the candidate.  As long as these peers hold nothing against
the candidate (`Raft.Supports`), it becomes leader.

* `Cluster.step_round`: a round changes only by the answer of a peer it waits for;
* `Candidacy.granted`: every answer of a supporter is a vote, however often the network
  repeats the request;
* `Candidacy.tally`: the counter is at least the number of supporters that have answered;
* `candidate_isElected`: the election is won.

The counter is compared with the majority only when a vote arrives.  A cluster of one server
has no peers, so its server never leads (`lone_server_stalls`).
-/
import Mit6824.RaftFreshVote
import Mit6824.RaftProgress

namespace Mit6824

namespace Raft

variable {n : ℕ} {C : Type} {me : Fin n}

/-- The request that an election started now sends. -/
def ballotArgs [Inhabited C] (rf : Raft C me) : RequestVoteArgs n :=
  ⟨rf.currentTerm + 1, me, rf.logs.length - 1, (rf.logs.getLastD default).term⟩

/-- The server would grant the request: its term is not newer, its vote of this term is not
taken, and the candidate's log is not behind its own. -/
def Supports (rf : Raft C me) (args : RequestVoteArgs n) : Prop :=
  ¬ rf.refusesVote args ∧ ¬ rf.Behind args

instance (rf : Raft C me) (args : RequestVoteArgs n) : Decidable (rf.Supports args) :=
  inferInstanceAs (Decidable (_ ∧ _))

/-- A supporter grants. -/
theorem Supports.requestVote {rf : Raft C me} {args : RequestVoteArgs n} (h : rf.Supports args)
    (hne : rf.logs ≠ []) : rf.requestVote args = .ok (rf.granted args, ⟨args.term, true⟩) := by
  rw [requestVote_of_not_refusesVote hne h.1, if_neg h.2]

theorem ballotArgs_eq [Inhabited C] {rf : Raft C me} {last : LogEntry C}
    (hlast : rf.logs[rf.logs.length - 1]? = some last) :
    rf.ballotArgs = ⟨rf.currentTerm + 1, me, rf.logs.length - 1, last.term⟩ := by
  unfold ballotArgs
  rw [List.getLastD_eq_getLast?, List.getLast?_eq_getElem?, hlast]
  rfl

end Raft

namespace Cluster

variable {n : ℕ} {C : Type} [Inhabited C] {c c' : Cluster n C} {a : Action n C} {s : Fin n}
  {rf : Raft C s} {msgs : List (Msg n C)} {events : List (Event n C)}

/-! ## Within one term -/

omit [Inhabited C] in
/-- Observing a term without leaving one's own changes nothing. -/
theorem observeTerm_of_currentTerm_eq {rf : Raft C s} {t : ℕ}
    (h : (rf.observeTerm t).currentTerm = rf.currentTerm) : rf.observeTerm t = rf := by
  rw [Raft.observeTerm_currentTerm] at h
  exact Raft.observeTerm_of_le (h ▸ le_max_right _ _)

/-- A server that neither restarts nor leaves its term keeps its role or becomes leader. -/
theorem Move.state_cases (h : Move c a s rf msgs events) (hepoch : rf.epoch = (c.nodes s).epoch)
    (hterm : rf.currentTerm = (c.nodes s).currentTerm) :
    rf.state = (c.nodes s).state ∨ rf.state = .leader := by
  -- a newer term is the only way back to a follower
  have hobserved : ∀ {rf' : Raft C s} {t : ℕ}, rf'.currentTerm = (c.nodes s).currentTerm →
      rf'.state = (c.nodes s).state → (rf'.observeTerm t).currentTerm = (c.nodes s).currentTerm →
      (rf'.observeTerm t).state = (c.nodes s).state := by
    intro rf' t hsame hstate ht
    rw [observeTerm_of_currentTerm_eq (ht.trans hsame.symm)]
    exact hstate
  cases h with
  | crash =>
      rw [Raft.restart_epoch] at hepoch
      omega
  | handlerPanic =>
      rw [Raft.restart_epoch, Raft.persist_epoch, Raft.observeTerm_epoch] at hepoch
      omega
  | campaignPanic s rf' hrf hterm' hlogs =>
      rw [Raft.restart_epoch, Raft.persist_epoch] at hepoch
      omega
  | campaign s last hlast =>
      have hnext : (c.nodes s).currentTerm + 1 = (c.nodes s).currentTerm := hterm
      omega
  | heartbeat =>
      obtain ⟨hb, hshape⟩ := (c.nodes s).heartbeatTimeout_shape
      rw [hshape]
      exact .inl rfl
  | heartbeatSkip => exact .inl rfl
  | heartbeatSend => exact .inl rfl
  | voteRefuse => exact .inl rfl
  | voteBehind => exact .inl (hobserved rfl rfl hterm)
  | voteGrant => exact .inl (hobserved rfl rfl hterm)
  | voteCount => exact .inl rfl
  | voteElect => exact .inr rfl
  | voteOther m src k dst reply round hm hround rf hrf =>
      rcases hrf with rfl | ⟨-, rfl⟩
      · exact .inl rfl
      · exact .inl (hobserved rfl rfl hterm)
  | appendStale => exact .inl rfl
  | appendReject => exact .inl (hobserved rfl rfl hterm)
  | appendAccept m src e k dst args prev hm hle hprev hprevTerm =>
      rw [Raft.accepted_currentTerm, ← Raft.observeTerm_currentTerm] at hterm
      rw [(Raft.accepted_core _ args).2.2.1]
      exact .inl (hobserved rfl rfl hterm)
  | replyMatch m src k reply call hm hcall hsuccess =>
      obtain ⟨ni, mi, ci, ap, hshape⟩ :=
        ((c.nodes s).callDone k call).matched_shape call.server call.args
      rw [hshape]
      exact .inl rfl
  | replyHigher => exact .inl (hobserved rfl rfl hterm)
  | replyBackoff => exact .inl rfl
  | startRead s command =>
      obtain ⟨st, hshape⟩ := (c.nodes s).startRead_shape command
      rw [hshape]
      exact .inl rfl
  | startAppend => exact .inl rfl
  | applySend => exact .inl rfl
  | applyStore => exact .inl rfl

/-- The rounds of a server that does not restart stay as they are, and a new one may follow,
except when a vote reply arrives. -/
theorem Move.rounds_cases (h : Move c a s rf msgs events)
    (hepoch : rf.epoch = (c.nodes s).epoch) :
    (∃ l, rf.elections = (c.nodes s).elections ++ l) ∨
      ∃ m e k dst reply, a = .deliver m ∧
        c.net[m]? = some (.requestVoteReply s e k dst reply) := by
  have hkeep : rf.elections = (c.nodes s).elections →
      ∃ l, rf.elections = (c.nodes s).elections ++ l := by
    intro heq
    exact ⟨[], by rw [heq, List.append_nil]⟩
  cases h with
  | crash =>
      rw [Raft.restart_epoch] at hepoch
      omega
  | handlerPanic =>
      rw [Raft.restart_epoch, Raft.persist_epoch, Raft.observeTerm_epoch] at hepoch
      omega
  | campaignPanic s rf' hrf hterm' hlogs =>
      rw [Raft.restart_epoch, Raft.persist_epoch] at hepoch
      omega
  | campaign => exact .inl ⟨_, rfl⟩
  | heartbeat =>
      obtain ⟨hb, hshape⟩ := (c.nodes s).heartbeatTimeout_shape
      exact .inl (hkeep (by rw [hshape]))
  | heartbeatSkip => exact .inl (hkeep rfl)
  | heartbeatSend => exact .inl (hkeep rfl)
  | voteRefuse => exact .inl (hkeep rfl)
  | voteBehind => exact .inl (hkeep (Raft.observeTerm_elections _ _))
  | voteGrant => exact .inl (hkeep (Raft.observeTerm_elections _ _))
  | voteCount m src k dst reply round hm => exact .inr ⟨m, _, k, dst, reply, rfl, hm⟩
  | voteElect m src k dst reply round hm => exact .inr ⟨m, _, k, dst, reply, rfl, hm⟩
  | voteOther m src k dst reply round hm => exact .inr ⟨m, _, k, dst, reply, rfl, hm⟩
  | appendStale => exact .inl (hkeep rfl)
  | appendReject => exact .inl (hkeep (Raft.observeTerm_elections _ _))
  | appendAccept m src e k dst args prev hm hle hprev hprevTerm =>
      exact .inl (hkeep (Raft.accepted_core _ args).2.2.2.1)
  | replyMatch m src k reply call hm hcall hsuccess =>
      obtain ⟨ni, mi, ci, ap, hshape⟩ :=
        ((c.nodes s).callDone k call).matched_shape call.server call.args
      exact .inl (hkeep (by rw [hshape]; rfl))
  | replyHigher m src k reply call hm hcall hterm =>
      exact .inl (hkeep (Raft.observeTerm_elections _ _))
  | replyBackoff => exact .inl (hkeep rfl)
  | startRead s command =>
      obtain ⟨st, hshape⟩ := (c.nodes s).startRead_shape command
      exact .inl (hkeep (by rw [hshape]))
  | startAppend => exact .inl (hkeep rfl)
  | applySend => exact .inl (hkeep rfl)
  | applyStore => exact .inl (hkeep rfl)

/-- The answer of `dst` to round `k` of `s` arrives. -/
structure VoteArrives (c : Cluster n C) (s : Fin n) (a : Action n C) (rf : Raft C s) (k : ℕ)
    (round : Election n) (dst : Fin n) (reply : RequestVoteReply) : Prop where
  message : ∃ m, a = .deliver m ∧
    c.net[m]? = some (.requestVoteReply s (c.nodes s).epoch k dst reply)
  waiting : dst ∈ round.waiting
  result : rf = (c.nodes s).voteReply k dst reply

/-- A vote reply that is handled answers a round that waits for it. -/
theorem voteArrives_of_step {m e k : ℕ} {dst : Fin n} {reply : RequestVoteReply}
    (hm : c.net[m]? = some (.requestVoteReply s e k dst reply))
    (hstep : c.step (.deliver m) = some c') :
    ∃ round, (c.nodes s).elections[k]? = some round ∧
      c.VoteArrives s (.deliver m) (c'.nodes s) k round dst reply := by
  obtain ⟨msg, hmsg, hreceive⟩ := step_deliver hstep
  obtain rfl := Option.some.inj (hm.symm.trans hmsg)
  obtain ⟨rfl, round, hround, hwait, rfl⟩ := receive_requestVoteReply hreceive
  exact ⟨round, hround, ⟨m, rfl, hm⟩, hwait, put_nodes_self _ _ _ _ _⟩

/-- **A round changes only by an answer to it.** -/
theorem step_round (hstep : c.step a = some c') (hepoch : (c'.nodes s).epoch = (c.nodes s).epoch)
    {k : ℕ} {round : Election n} (hround : (c.nodes s).elections[k]? = some round) :
    (c'.nodes s).elections[k]? = some round ∨
      ∃ dst reply, c.VoteArrives s a (c'.nodes s) k round dst reply := by
  obtain ⟨t, rf, msgs, events, heq, hmove⟩ := step_move hstep
  by_cases hst : s = t
  · subst hst
    rw [heq, put_nodes_self] at hepoch
    rcases hmove.rounds_cases hepoch with ⟨l, hl⟩ | ⟨m, e, k', dst, reply, rfl, hm⟩
    · obtain ⟨hlt, -⟩ := List.getElem?_eq_some_iff.mp hround
      rw [heq, put_nodes_self, hl, List.getElem?_append_left hlt]
      exact .inl hround
    · obtain ⟨round', hround', harrives⟩ := voteArrives_of_step hm hstep
      by_cases hk : k' = k
      · subst hk
        obtain rfl := Option.some.inj (hround.symm.trans hround')
        exact .inr ⟨dst, reply, harrives⟩
      · -- the answer to another round
        rw [harrives.result, Raft.voteReply_eq hround']
        have hother : ∀ count, ((c.nodes s).elections.set k' (round'.answered dst count))[k]?
            = some round := by
          intro count
          rw [List.getElem?_set_ne hk]
          exact hround
        split_ifs
        · exact .inl (hother 1)
        · exact .inl (hother 1)
        · rw [Raft.persist_elections, Raft.observeTerm_elections]
          exact .inl (hother 0)
        · exact .inl (hother 0)
  · rw [heq, put_nodes_of_ne _ hst]
    exact .inl hround

omit [Inhabited C] in
/-- What the answer does to the round of a candidate that stays in its term. -/
theorem VoteArrives.cases {k : ℕ} {round : Election n} {dst : Fin n} {reply : RequestVoteReply}
    (h : c.VoteArrives s a rf k round dst reply)
    (hround : (c.nodes s).elections[k]? = some round)
    (hstate : (c.nodes s).state = .candidate)
    (hterm : rf.currentTerm = (c.nodes s).currentTerm) (hlost : rf.state ≠ .leader) :
    (reply.voteGranted = true ∧ round.voteCount + 1 ≤ n / 2 ∧
        rf.elections[k]? = some (round.answered dst 1)) ∨
      reply.voteGranted = false ∧ rf.elections[k]? = some (round.answered dst 0) := by
  obtain ⟨hk, -⟩ := List.getElem?_eq_some_iff.mp hround
  have hset : ∀ count, ((c.nodes s).elections.set k (round.answered dst count))[k]?
      = some (round.answered dst count) := fun count => List.getElem?_set_self hk
  have hresult := h.result
  rw [Raft.voteReply_eq hround] at hresult
  split_ifs at hresult with hgranted hcount hnewer
  · rw [hresult] at hlost
    exact absurd rfl hlost
  · rw [hresult]
    exact .inl ⟨hgranted.1, not_lt.mp hcount, hset 1⟩
  · -- the reply would take the candidate to a newer term
    rw [hresult, Raft.persist_currentTerm, Raft.observeTerm_currentTerm] at hterm
    have hmax : max (c.nodes s).currentTerm reply.term = (c.nodes s).currentTerm := hterm
    rw [max_eq_right hnewer.le] at hmax
    omega
  · rw [hresult]
    refine .inr ⟨?_, hset 0⟩
    by_contra hno
    exact hgranted ⟨by simpa using hno, hstate⟩

/-- A new vote reply on the network has just been computed by the receiver of its request. -/
theorem vote_of_step (hstep : c.step a = some c') {src dst : Fin n} {e k : ℕ}
    {reply : RequestVoteReply} (hmem : .requestVoteReply src e k dst reply ∈ c'.net) :
    .requestVoteReply src e k dst reply ∈ c.net ∨
      ∃ args, .requestVote src e k dst args ∈ c.net ∧
        (c.nodes dst).requestVote args = .ok (c'.nodes dst, reply) := by
  by_cases hreq : ∃ m src e k dst args, a = .deliver m ∧
      c.net[m]? = some (.requestVote src e k dst args)
  · obtain ⟨m, src', e', k', dst', args, rfl, hm⟩ := hreq
    obtain ⟨msg, hm', hreceive⟩ := step_deliver hstep
    obtain rfl := Option.some.inj (hm.symm.trans hm')
    obtain rfl : _ = c' := Option.some.inj hreceive
    rcases mem_finish_net (.requestVoteReply src' e' k' dst') (fun reply =>
        if reply.voteGranted then [.granted dst' reply.term args.candidateId] else []) hmem with
      hold | ⟨reply', heq, hresult⟩
    · exact .inl hold
    · obtain ⟨rfl, rfl, rfl, rfl, rfl⟩ := Msg.requestVoteReply.inj heq
      exact .inr ⟨args, List.mem_of_getElem? hm, hresult⟩
  · obtain ⟨t, rf, msgs, events, rfl, hmove⟩ := step_move hstep
    rcases List.mem_append.mp hmem with hold | hnew
    · exact .inl hold
    · exfalso
      cases hmove with
      | voteRefuse m src' e' k' dst' args hm => exact hreq ⟨m, _, _, _, _, _, rfl, hm⟩
      | voteBehind m src' e' k' dst' args hm => exact hreq ⟨m, _, _, _, _, _, rfl, hm⟩
      | voteGrant m src' e' k' dst' args last hm => exact hreq ⟨m, _, _, _, _, _, rfl, hm⟩
      | _ => simp at hnew

end Cluster

section Runs

variable {n : ℕ} {C : Type} [Inhabited C]

open Filter

/-- At the moment `K` the election timer of `s` expires, and from then on the server stays in
the term of this election and does not restart. -/
structure Candidacy (r : (raftSystem n C).Run) (s : Fin n) (K : ℕ) : Prop where
  timeout : r.act K = some (.electionTimeout s)
  epoch : ∀ k ≥ K, ((r.state k).nodes s).epoch = ((r.state K).nodes s).epoch
  term : ∀ k > K, ((r.state k).nodes s).currentTerm = ((r.state K).nodes s).currentTerm + 1

/-- At the moment `j` an answer of `p` to round `round` of `s` arrives. -/
def Answers (r : (raftSystem n C).Run) (s p : Fin n) (round j : ℕ) : Prop :=
  ∃ m e reply, r.act j = some (.deliver m) ∧
    (r.state j).net[m]? = some (.requestVoteReply s e round p reply)

variable {r : (raftSystem n C).Run} {s p : Fin n} {K j k : ℕ}

namespace Candidacy

/-- The candidate votes for itself and asks all others. -/
theorem start (h : Candidacy r s K) :
    ∃ last, ((r.state K).nodes s).logs[((r.state K).nodes s).logs.length - 1]? = some last ∧
      (r.state (K + 1)).nodes s = ((r.state K).nodes s).campaigned last ∧
      (r.state (K + 1)).net = (r.state K).net ++ (Raft.others s).map fun server =>
        .requestVote s ((r.state K).nodes s).epoch ((r.state K).nodes s).elections.length server
          ((r.state K).nodes s).ballotArgs := by
  have hne := (groundInv_run r K).logs_ne_nil s
  have hpos : 0 < ((r.state K).nodes s).logs.length := List.length_pos_of_ne_nil hne
  obtain ⟨last, hlast⟩ : ∃ last,
      ((r.state K).nodes s).logs[((r.state K).nodes s).logs.length - 1]? = some last :=
    ⟨_, List.getElem?_eq_getElem (by omega)⟩
  have hstep := Option.some.inj (r.taken K _ h.timeout)
  rw [Raft.electionTimeout_eq _ hlast] at hstep
  refine ⟨last, hlast, ?_, ?_⟩
  · rw [← hstep]
    exact Cluster.put_nodes_self _ _ _ _ _
  · rw [← hstep, Raft.ballotArgs_eq hlast]
    rfl

/-- The server stays a candidate until it leads, and then it leads. -/
theorem state_cases (h : Candidacy r s K) (hk : K < k) :
    ((r.state (k + 1)).nodes s).state = ((r.state k).nodes s).state ∨
      ((r.state (k + 1)).nodes s).state = .leader := by
  rcases ha : r.act k with _ | a
  · rw [r.idle k ha]
    exact .inl rfl
  · obtain ⟨t, rf, msgs, events, heq, hmove⟩ := Cluster.step_move (r.taken k a ha)
    by_cases hst : s = t
    · subst hst
      have hepoch := (h.epoch (k + 1) (by omega)).trans (h.epoch k hk.le).symm
      have hterm := (h.term (k + 1) (by omega)).trans (h.term k hk).symm
      rw [heq, Cluster.put_nodes_self] at hepoch hterm ⊢
      exact hmove.state_cases hepoch hterm
    · rw [heq, Cluster.put_nodes_of_ne _ hst]
      exact .inl rfl

theorem ne_follower (h : Candidacy r s K) (hk : K < k) :
    ((r.state k).nodes s).state ≠ .follower := by
  induction k, hk using Nat.le_induction with
  | base =>
      obtain ⟨last, -, hnode, -⟩ := h.start
      rw [hnode]
      show (if ((r.state K).nodes s).state = .follower then NodeState.candidate
        else ((r.state K).nodes s).state) ≠ .follower
      split_ifs with hstate
      · decide
      · exact hstate
  | succ k hk ih =>
      rcases h.state_cases hk with heq | heq
      · rw [heq]
        exact ih
      · rw [heq]
        decide

/-- A candidate that has won reigns. -/
theorem reign (h : Candidacy r s K) (hj : K < j) (hlead : ((r.state j).nodes s).state = .leader) :
    Reign r s j where
  leader k hk := by
    induction k, hk using Nat.le_induction with
    | base => exact hlead
    | succ k hk ih =>
        rcases h.state_cases (show K < k by omega) with heq | heq
        · rw [heq]
          exact ih
        · exact heq
  epoch k hk := (h.epoch k (by omega)).trans (h.epoch j hj.le).symm
  term k hk := (h.term k (by omega)).trans (h.term j hj).symm

/-- The requests of the round are the one that the candidate has sent. -/
theorem request_args (h : Candidacy r s K) (hk : K < k) {args : RequestVoteArgs n}
    (hmem : .requestVote s ((r.state K).nodes s).epoch ((r.state K).nodes s).elections.length p
      args ∈ (r.state k).net) : args = ((r.state K).nodes s).ballotArgs := by
  induction k, hk using Nat.le_induction with
  | base =>
      obtain ⟨-, -, -, hnet⟩ := h.start
      rw [hnet] at hmem
      rcases List.mem_append.mp hmem with hold | hnew
      · -- no ballot of this number was there before
        obtain ⟨-, hballot⟩ := (voteInv_run r K).request hold
        exact absurd (((voteInv_run r K).ballot_bound hballot).2 rfl) (lt_irrefl _)
      · obtain ⟨server, -, heq⟩ := List.mem_map.mp hnew
        injection heq with _ _ _ _ hargs
        exact hargs.symm
  | succ k hk ih =>
      rcases ha : r.act k with _ | a
      · rw [r.idle k ha] at hmem
        exact ih hmem
      · obtain ⟨t, rf, msgs, events, heq, hmove⟩ := Cluster.step_move (r.taken k a ha)
        have hmem' := hmem
        rw [heq, Cluster.put_net] at hmem'
        rcases List.mem_append.mp hmem' with hold | hnew
        · exact ih hold
        · -- a later campaign would leave the term
          obtain ⟨rfl, -, last, -, hrf, -⟩ := hmove.requestVote_mem hnew
          have hterm := h.term (k + 1) (by omega)
          rw [heq, Cluster.put_nodes_self, hrf] at hterm
          have hnext : ((r.state k).nodes s).currentTerm + 1
              = ((r.state K).nodes s).currentTerm + 1 := hterm
          rw [h.term k hk] at hnext
          omega

/-- **Every answer of a supporter is a vote.** -/
theorem granted (h : Candidacy r s K)
    (hsupports : ∀ j > K, ((r.state j).nodes p).Supports ((r.state K).nodes s).ballotArgs)
    (hk : K < k) {reply : RequestVoteReply}
    (hmem : .requestVoteReply s ((r.state K).nodes s).epoch
      ((r.state K).nodes s).elections.length p reply ∈ (r.state k).net) :
    reply.voteGranted = true := by
  induction k, hk using Nat.le_induction with
  | base =>
      obtain ⟨-, -, -, hnet⟩ := h.start
      rw [hnet] at hmem
      rcases List.mem_append.mp hmem with hold | hnew
      · obtain ⟨T, hballot, -⟩ := (voteInv_run r K).reply hold
        exact absurd (((voteInv_run r K).ballot_bound hballot).2 rfl) (lt_irrefl _)
      · simp at hnew
  | succ k hk ih =>
      rcases ha : r.act k with _ | a
      · rw [r.idle k ha] at hmem
        exact ih hmem
      · rcases Cluster.vote_of_step (r.taken k a ha) hmem with hold | ⟨args, hrequest, hanswer⟩
        · exact ih hold
        · obtain rfl := h.request_args hk hrequest
          rw [(hsupports k hk).requestVote ((groundInv_run r k).logs_ne_nil p)] at hanswer
          obtain ⟨-, rfl⟩ := Prod.mk.inj (Except.ok.inj hanswer)
          rfl

/-- **The count of a candidacy that is not won.**  The counter is below a majority, and it is
at least the number of supporters that have answered. -/
structure Tally (r : (raftSystem n C).Run) (s : Fin n) (K : ℕ) (Q : Finset (Fin n)) (j : ℕ)
    (round : Election n) : Prop where
  current : ((r.state j).nodes s).elections[((r.state K).nodes s).elections.length]? = some round
  voted : (Q.filter (· ∉ round.waiting)).card + 1 ≤ round.voteCount
  short : round.voteCount ≤ n / 2
  answered : ∀ p, ∀ i < j, K < i →
    Answers r s p ((r.state K).nodes s).elections.length i → p ∉ round.waiting

/-- The count after one more answer. -/
theorem card_answered {Q : Finset (Fin n)} {round : Election n} {dst : Fin n} {count : ℕ}
    (hvoted : (Q.filter (· ∉ round.waiting)).card + 1 ≤ round.voteCount)
    (hdst : dst ∈ Q → count = 1) :
    (Q.filter (· ∉ (round.answered dst count).waiting)).card + 1
      ≤ (round.answered dst count).voteCount := by
  have hmem : ∀ p, p ∉ (round.answered dst count).waiting ↔ p ∉ round.waiting ∨ p = dst := by
    intro p
    show p ∉ round.waiting.filter (· ≠ dst) ↔ _
    rw [List.mem_filter, decide_eq_true_eq]
    tauto
  show _ ≤ round.voteCount + count
  by_cases hQ : dst ∈ Q
  · have hsub : Q.filter (· ∉ (round.answered dst count).waiting)
        ⊆ insert dst (Q.filter (· ∉ round.waiting)) := by
      intro p hp
      rw [Finset.mem_filter, hmem] at hp
      rw [Finset.mem_insert, Finset.mem_filter]
      tauto
    have hcard := (Finset.card_le_card hsub).trans (Finset.card_insert_le _ _)
    have hcount := hdst hQ
    omega
  · have heq : Q.filter (· ∉ (round.answered dst count).waiting)
        = Q.filter (· ∉ round.waiting) := by
      refine Finset.filter_congr fun p hp => ?_
      rw [hmem]
      have hne : p ≠ dst := fun hpd => hQ (hpd ▸ hp)
      tauto
    rw [heq]
    omega

theorem tally_start (h : Candidacy r s K) (hn : 2 ≤ n) {Q : Finset (Fin n)} (hs : s ∉ Q) :
    ∃ round, Tally r s K Q (K + 1) round := by
  obtain ⟨last, hlast, hnode, -⟩ := h.start
  refine ⟨⟨((r.state K).nodes s).ballotArgs, 1, Raft.others s⟩, ?_, ?_, ?_,
    fun p i hi hKi => absurd hKi (by omega)⟩
  · rw [hnode, Raft.ballotArgs_eq hlast]
    exact List.getElem?_concat_length
  · -- everybody else is asked
    have hnone : Q.filter (· ∉ Raft.others s) = ∅ := by
      refine Finset.filter_eq_empty_iff.mpr fun p hp hnot => hnot ?_
      have hne : p ≠ s := fun hps => hs (hps ▸ hp)
      simpa [Raft.others] using hne
    rw [hnone]
    rfl
  · show 1 ≤ n / 2
    omega

theorem Tally.step {Q : Finset (Fin n)} {round : Election n} (ht : Tally r s K Q j round)
    (h : Candidacy r s K) (hj : K < j)
    (hgranted : ∀ p ∈ Q, ∀ reply, .requestVoteReply s ((r.state K).nodes s).epoch
      ((r.state K).nodes s).elections.length p reply ∈ (r.state j).net → reply.voteGranted = true)
    (hlost : ∀ k > K, ((r.state k).nodes s).state ≠ .leader) :
    ∃ round', Tally r s K Q (j + 1) round' := by
  have hepoch := (h.epoch (j + 1) (by omega)).trans (h.epoch j hj.le).symm
  have hterm := (h.term (j + 1) (by omega)).trans (h.term j hj).symm
  have hstate : ((r.state j).nodes s).state = .candidate := by
    have h1 := h.ne_follower hj
    have h2 := hlost j hj
    rcases hs : ((r.state j).nodes s).state with _ | _ | _
    · exact absurd hs h1
    · rfl
    · exact absurd hs h2
  by_cases hnow : ∃ p, Answers r s p ((r.state K).nodes s).elections.length j
  · obtain ⟨p, m, e, reply, ha, hm⟩ := hnow
    obtain ⟨round', hround', harrives⟩ := Cluster.voteArrives_of_step hm (r.taken j _ ha)
    obtain rfl := Option.some.inj (ht.current.symm.trans hround')
    -- nobody else answers at this moment
    have hanswered : ∀ count, ∀ q, ∀ i < j + 1, K < i →
        Answers r s q ((r.state K).nodes s).elections.length i →
        q ∉ (round.answered p count).waiting := by
      intro count q i hi hKi hans hmem
      have hmem' : q ∈ round.waiting ∧ q ≠ p := by
        simpa [Election.answered] using hmem
      rcases Nat.lt_succ_iff_lt_or_eq.mp hi with hlt | rfl
      · exact ht.answered q i hlt hKi hans hmem'.1
      · obtain ⟨m', e', reply', ha', hm'⟩ := hans
        obtain rfl : m = m' := by simpa [ha] using ha'
        rw [hm] at hm'
        injection Option.some.inj hm' with _ _ _ hpq
        exact hmem'.2 hpq.symm
    rcases harrives.cases ht.current hstate hterm (hlost (j + 1) (by omega)) with
      ⟨-, hcount, hround⟩ | ⟨hrefused, hround⟩
    · exact ⟨_, hround, card_answered ht.voted fun _ => rfl, hcount, hanswered 1⟩
    · refine ⟨_, hround, card_answered ht.voted fun hp => ?_, ht.short, hanswered 0⟩
      -- a supporter has granted its vote
      obtain ⟨m', hm', hmsg⟩ := harrives.message
      rw [h.epoch j hj.le] at hmsg
      rw [hgranted p hp reply (List.mem_of_getElem? hmsg)] at hrefused
      cases hrefused
  · refine ⟨round, ?_, ht.voted, ht.short, fun q i hi hKi hans => ?_⟩
    · rcases ha : r.act j with _ | a
      · rw [r.idle j ha]
        exact ht.current
      · refine (Cluster.step_round (r.taken j a ha) hepoch ht.current).resolve_right ?_
        rintro ⟨p, reply, harrives⟩
        obtain ⟨m, rfl, hm⟩ := harrives.message
        exact hnow ⟨p, m, _, reply, ha, hm⟩
    · rcases Nat.lt_succ_iff_lt_or_eq.mp hi with hlt | rfl
      · exact ht.answered q i hlt hKi hans
      · exact absurd ⟨q, hans⟩ hnow

theorem tally (h : Candidacy r s K) (hn : 2 ≤ n) {Q : Finset (Fin n)} (hs : s ∉ Q)
    (hsupports : ∀ p ∈ Q, ∀ j > K,
      ((r.state j).nodes p).Supports ((r.state K).nodes s).ballotArgs)
    (hlost : ∀ k > K, ((r.state k).nodes s).state ≠ .leader) (hj : K < j) :
    ∃ round, Tally r s K Q j round := by
  induction j, hj using Nat.le_induction with
  | base => exact h.tally_start hn hs
  | succ j hj ih =>
      obtain ⟨round, ht⟩ := ih
      exact ht.step h hj (fun p hp reply hmem => h.granted (hsupports p hp) hj hmem) hlost

end Candidacy

/-- **A supported candidate wins.**  In every run of a cluster of at least two servers: suppose
that the election timer of `s` expires at the moment `K`, that from then on `s` stays in the
term of this election and does not restart, and that `Q` is a set of peers which is a majority
together with `s`.  If each of them answers the round at some later moment and, as long as `s`
does not lead, holds nothing against the request of `s`, then `s` becomes leader and reigns from
then on.  It does not matter in which order the answers arrive, how often the network repeats a
request, what the other servers do or answer, or which older rounds of `s` are still open. -/
theorem candidate_isElected (r : (raftSystem n C).Run) (hn : 2 ≤ n) (s : Fin n) (K : ℕ)
    (hcandidacy : Candidacy r s K) (Q : Finset (Fin n)) (hs : s ∉ Q) (hQ : n / 2 < Q.card + 1)
    (hsupports : ∀ p ∈ Q, ∀ j > K, ((r.state j).nodes s).state ≠ .leader →
      ((r.state j).nodes p).Supports ((r.state K).nodes s).ballotArgs)
    (hanswers : ∀ p ∈ Q, ∃ j > K, Answers r s p ((r.state K).nodes s).elections.length j) :
    ∃ J > K, Reign r s J := by
  by_contra hnever
  have hlost : ∀ k > K, ((r.state k).nodes s).state ≠ .leader := fun k hk hlead =>
    hnever ⟨k, hk, hcandidacy.reign hk hlead⟩
  -- a moment at which all of `Q` have answered
  have hall : ∀ᶠ J in atTop, ∀ p ∈ Q, ∃ i < J, K < i ∧
      Answers r s p ((r.state K).nodes s).elections.length i := by
    refine (eventually_all_finset Q).mpr fun p hp => ?_
    obtain ⟨i, hi, hans⟩ := hanswers p hp
    filter_upwards [eventually_gt_atTop i] with J hJ
    exact ⟨i, hJ, hi, hans⟩
  obtain ⟨J, hJ, hKJ⟩ := (hall.and (eventually_gt_atTop K)).exists
  obtain ⟨round, ht⟩ := hcandidacy.tally hn hs
    (fun p hp j hj => hsupports p hp j hj (hlost j hj)) hlost hKJ
  have hfilter : Q.filter (· ∉ round.waiting) = Q := by
    refine Finset.filter_eq_self.mpr fun p hp => ?_
    obtain ⟨i, hi, hKi, hans⟩ := hJ p hp
    exact ht.answered p i hi hKi hans
  have hvoted := ht.voted
  have hshort := ht.short
  rw [hfilter] at hvoted
  omega

/-- Server `0` campaigns twice; the requests of its first round are lost, and server `2`
answers the second one. -/
def secondAttempt : (raftSystem 3 ℕ).Run :=
  (raftSystem 3 ℕ).ofList [.electionTimeout 0, .electionTimeout 0, .deliver 3, .deliver 4]

/-- Server `0` of `secondAttempt` becomes leader by its second round. -/
theorem candidate_isElected_secondAttempt :
    Candidacy secondAttempt 0 1 ∧ ((secondAttempt.state 1).nodes 0).elections.length = 1 ∧
      ∃ J > 1, Reign secondAttempt 0 J := by
  have hcandidacy : Candidacy secondAttempt 0 1 := by
    refine ⟨by decide, ?_, ?_⟩
    · exact TransitionSystem.ofList_forall_ge (S := raftSystem 3 ℕ)
        (P := fun c => (c.nodes 0).epoch = ((secondAttempt.state 1).nodes 0).epoch)
        (by decide) (by decide)
    · exact TransitionSystem.ofList_forall_ge (S := raftSystem 3 ℕ) (K := 2)
        (P := fun c => (c.nodes 0).currentTerm
          = ((secondAttempt.state 1).nodes 0).currentTerm + 1)
        (by decide) (by decide)
  refine ⟨hcandidacy, by decide, ?_⟩
  refine candidate_isElected secondAttempt (by decide) 0 1 hcandidacy {2} (by decide) (by decide)
    ?_ ?_
  · intro p hp j hj hlost
    obtain rfl := Finset.mem_singleton.mp hp
    have hleads : ∀ k ≥ 4, ((secondAttempt.state k).nodes 0).state = .leader :=
      TransitionSystem.ofList_forall_ge (S := raftSystem 3 ℕ)
        (P := fun c => (c.nodes 0).state = .leader) (by decide) (by decide)
    have hlt : j < 4 := by
      by_contra hge
      exact hlost (hleads j (by omega))
    have hbefore : ∀ k < 4, 1 < k → ((secondAttempt.state k).nodes 2).Supports
        ((secondAttempt.state 1).nodes 0).ballotArgs := by
      decide
    exact hbefore j hlt hj
  · intro p hp
    obtain rfl := Finset.mem_singleton.mp hp
    exact ⟨3, by decide, 4, 0, ⟨2, true⟩, by decide, by decide⟩

end Runs

/-! ## A cluster of one server -/

namespace Cluster

variable {C : Type} [Inhabited C] {c c' : Cluster 1 C} {a : Action 1 C} {s : Fin 1}
  {rf : Raft C s} {msgs : List (Msg 1 C)} {events : List (Event 1 C)}

/-- What a server without peers never gets. -/
structure Lone (rf : Raft C s) : Prop where
  state : rf.state ≠ .leader
  rounds : ∀ round ∈ rf.elections, round.waiting = []
  logs : rf.logs = [default]
  starts : rf.starts = []
  appends : rf.appends = []
  appliers : rf.appliers = []

/-- The invariant of a cluster of one server. -/
structure LoneInv (c : Cluster 1 C) : Prop where
  node : ∀ s, Lone (c.nodes s)
  request : ∀ {src e k dst args}, .appendEntries src e k dst args ∉ c.net
  applied : ∀ {s e msg}, .applied s e msg ∉ c.history

theorem loneInv_init : LoneInv (Cluster.init 1 C) where
  node s := ⟨by simp [init, Raft.make, Raft.readPersist],
    by simp [init, Raft.make, Raft.readPersist], rfl, rfl, rfl, rfl⟩
  request := by simp [init]
  applied := by simp [init]

theorem Lone.observeTerm {rf : Raft C s} (h : Lone rf) (t : ℕ) : Lone (rf.observeTerm t) where
  state := by
    by_cases ht : rf.currentTerm < t
    · rw [Raft.observeTerm_state_of_lt ht]
      decide
    · rw [Raft.observeTerm_of_le (not_lt.mp ht)]
      exact h.state
  rounds := by rw [Raft.observeTerm_elections]; exact h.rounds
  logs := by rw [Raft.observeTerm_logs]; exact h.logs
  starts := by rw [Raft.observeTerm_starts]; exact h.starts
  appends := by rw [Raft.observeTerm_appends]; exact h.appends
  appliers := by rw [Raft.observeTerm_appliers]; exact h.appliers

theorem Lone.persist {rf : Raft C s} (h : Lone rf) : Lone rf.persist :=
  ⟨h.state, h.rounds, h.logs, h.starts, h.appends, h.appliers⟩

theorem Lone.restart {rf : Raft C s} (hsynced : rf.Synced) (hlogs : rf.logs = [default]) :
    Lone rf.restart where
  state := by rw [Raft.restart_state]; decide
  rounds := by simp
  logs := (Raft.restart_of_synced hsynced).2.2.trans hlogs
  starts := Raft.restart_starts rf
  appends := by
    unfold Raft.restart Raft.make Raft.readPersist
    split <;> rfl
  appliers := by
    unfold Raft.restart Raft.make Raft.readPersist
    split <;> rfl

theorem Lone.answered {rf : Raft C s} (h : Lone rf) {k : ℕ} {round : Election 1}
    (hround : rf.elections[k]? = some round) (dst : Fin 1) :
    Lone (rf.answered k round dst 0) where
  state := h.state
  rounds := by
    intro round' hmem
    rcases List.mem_or_eq_of_mem_set hmem with hold | rfl
    · exact h.rounds round' hold
    · show round.waiting.filter _ = []
      rw [h.rounds round (List.mem_of_getElem? hround)]
      rfl
  logs := h.logs
  starts := h.starts
  appends := h.appends
  appliers := h.appliers

/-- There is nobody to ask. -/
theorem Lone.campaigned {rf : Raft C s} (h : Lone rf) (last : LogEntry C) :
    Lone (rf.campaigned last) where
  state := by
    show (if rf.state = .follower then NodeState.candidate else rf.state) ≠ .leader
    split_ifs
    · decide
    · exact h.state
  rounds := by
    intro round hmem
    rcases List.mem_append.mp hmem with hold | hnew
    · exact h.rounds round hold
    · rw [List.mem_singleton.mp hnew]
      have hothers : ∀ t : Fin 1, Raft.others t = [] := by decide
      exact hothers s
  logs := h.logs
  starts := h.starts
  appends := h.appends
  appliers := h.appliers

/-- A move keeps the server alone. -/
theorem LoneInv.node_move (hi : LoneInv c) (hs : (c.nodes s).Synced)
    (h : Move c a s rf msgs events) : Lone rf := by
  have hlone := hi.node s
  cases h with
  | crash => exact .restart hs hlone.logs
  | handlerPanic m s t => exact .restart (Raft.synced_persist _) (hlone.observeTerm t).logs
  | campaignPanic s rf' hepoch hterm hlogs =>
      exact .restart (Raft.synced_persist _) (hlogs.trans hlone.logs)
  | campaign s last => exact hlone.campaigned last
  | heartbeat =>
      obtain ⟨hb, hshape⟩ := (c.nodes s).heartbeatTimeout_shape
      rw [hshape]
      exact ⟨hlone.state, hlone.rounds, hlone.logs, hlone.starts, hlone.appends, hlone.appliers⟩
  | heartbeatSkip =>
      exact ⟨hlone.state, hlone.rounds, hlone.logs, hlone.starts, hlone.appends, hlone.appliers⟩
  | heartbeatSend s k server i prev hstate => exact absurd hstate hlone.state
  | voteRefuse => exact hlone.persist
  | voteBehind m src e k dst args => exact (hlone.observeTerm args.term).persist
  | voteGrant m src e k dst args =>
      have hobserved := hlone.observeTerm args.term
      exact ⟨hobserved.state, hobserved.rounds, hobserved.logs, hobserved.starts,
        hobserved.appends, hobserved.appliers⟩
  | voteCount m src k dst reply round hm hround hwait =>
      rw [hlone.rounds round (List.mem_of_getElem? hround)] at hwait
      exact absurd hwait (List.not_mem_nil)
  | voteElect m src k dst reply round hm hround hwait =>
      rw [hlone.rounds round (List.mem_of_getElem? hround)] at hwait
      exact absurd hwait (List.not_mem_nil)
  | voteOther m src k dst reply round hm hround rf hrf =>
      rcases hrf with rfl | ⟨-, rfl⟩
      · exact hlone.answered hround dst
      · exact ((hlone.answered hround dst).observeTerm reply.term).persist
  | appendStale m src e k dst args hm => exact absurd (List.mem_of_getElem? hm) hi.request
  | appendReject m src e k dst args reply hm => exact absurd (List.mem_of_getElem? hm) hi.request
  | appendAccept m src e k dst args prev hm => exact absurd (List.mem_of_getElem? hm) hi.request
  | replyMatch m src k reply call hm hcall => simp [hlone.appends] at hcall
  | replyHigher m src k reply call hm hcall => simp [hlone.appends] at hcall
  | replyBackoff m src k reply call next hcall => simp [hlone.appends] at hcall
  | startRead s command =>
      have hread : (c.nodes s).startRead command = c.nodes s := by
        unfold Raft.startRead Raft.getState
        simp [hlone.state]
      rw [hread]
      exact hlone
  | startAppend s k p hp => simp [hlone.starts] at hp
  | applySend s k g msg hg => simp [hlone.appliers] at hg
  | applyStore s k g hg => simp [hlone.appliers] at hg

theorem LoneInv.step (hi : LoneInv c) (hv : VoteInv c) (hstep : c.step a = some c') :
    LoneInv c' := by
  obtain ⟨s, rf, msgs, events, rfl, hmove⟩ := step_move hstep
  refine ⟨?_, ?_, ?_⟩
  · exact forall_put.mpr ⟨hi.node_move (hv.synced s) hmove, fun t _ => hi.node t⟩
  · intro src e k dst args hmem
    rcases List.mem_append.mp hmem with hold | hnew
    · exact hi.request hold
    · cases hmove with
      | heartbeatSend s k server i prev hstate => exact (hi.node s).state hstate
      | _ => simp at hnew
  · intro t e msg hmem
    rcases List.mem_append.mp hmem with hold | hnew
    · exact hi.applied hold
    · cases hmove with
      | applySend s k g msg hg => simp [(hi.node s).appliers] at hg
      | _ => simp at hnew

end Cluster

/-- **A cluster of one server does nothing.**  The vote count is compared with the majority
only in the goroutine of a peer, and there is none: in every run the server never becomes
leader, its log stays as `Make` has left it, and nothing is applied. -/
theorem lone_server_stalls {C : Type} [Inhabited C] (r : (raftSystem 1 C).Run) (k : ℕ) :
    (∀ s, ((r.state k).nodes s).state ≠ .leader ∧ ((r.state k).nodes s).logs = [default]) ∧
      ∀ s e msg, .applied s e msg ∉ (r.state k).history := by
  have hinv : (r.state k).VoteInv ∧ (r.state k).LoneInv :=
    r.invariant r.meets_true (I := fun c => c.VoteInv ∧ c.LoneInv)
      ⟨Cluster.voteInv_init, Cluster.loneInv_init⟩
      (fun c a c' hi _ hstep => ⟨hi.1.step hstep, hi.2.step hi.1 hstep⟩) k
  exact ⟨fun s => ⟨(hinv.2.node s).state, (hinv.2.node s).logs⟩, fun s e msg => hinv.2.applied⟩

end Mit6824
