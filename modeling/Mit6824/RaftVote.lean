/-
# Votes: one per server and term, across crashes

The vote layer of the cluster.  `Synced` says that the persister holds exactly
the term, vote and log of the server — the reason why a crash forgets no vote —
and `VoteInv` relates memory, the votes in the history, the granted replies in
flight and the counter of every election round.  It holds in every run, without
any condition on the steps; from it:

* the term of a server never decreases, a server votes for one candidate in a
  term, and at most one election round of a term ever counts a majority
  (`vote_uniqueness`);
* under a condition on the two steps that go wrong in the code, a term has at
  most one leader (`electionSafety`);
* the disk of a server always equals its memory (`disk_eq_memory`).
-/
import Mit6824.Majority
import Mit6824.RaftMove

namespace Mit6824

namespace Raft

variable {n : ℕ} {C : Type} [Inhabited C] {me : Fin n}

/-- The persister holds what the server has in memory, or it is empty and the
server has what `Make` starts with. -/
def Synced (rf : Raft C me) : Prop :=
  match rf.persister with
  | none => rf.currentTerm = 0 ∧ rf.votedFor = none ∧ rf.logs = [default]
  | some d => d = ⟨rf.currentTerm, rf.votedFor, rf.logs⟩

theorem synced_persist (rf : Raft C me) : rf.persist.Synced := rfl

/-- A restart gives back the term, the vote and the log. -/
theorem restart_of_synced {rf : Raft C me} (h : rf.Synced) :
    rf.restart.currentTerm = rf.currentTerm ∧ rf.restart.votedFor = rf.votedFor ∧
      rf.restart.logs = rf.logs := by
  unfold Synced at h
  unfold restart make
  rcases hp : rf.persister with _ | d
  · rw [hp] at h
    obtain ⟨h1, h2, h3⟩ := h
    exact ⟨h1.symm, h2.symm, h3.symm⟩
  · rw [hp] at h
    dsimp only at h
    subst h
    exact ⟨rfl, rfl, rfl⟩

/-- A restarted server is in step with its persister. -/
theorem synced_restart {rf : Raft C me} : rf.restart.Synced := by
  unfold restart make Synced
  rcases hp : rf.persister with _ | d
  · exact ⟨rfl, rfl, rfl⟩
  · rfl

@[simp] theorem restart_epoch (rf : Raft C me) : rf.restart.epoch = rf.epoch + 1 := by
  unfold restart make readPersist
  rcases rf.persister with _ | d <;> rfl

@[simp] theorem restart_elections (rf : Raft C me) : rf.restart.elections = [] := by
  unfold restart make readPersist
  rcases rf.persister with _ | d <;> rfl

@[simp] theorem restart_state (rf : Raft C me) : rf.restart.state = .follower := by
  unfold restart make readPersist
  rcases rf.persister with _ | d <;> rfl

theorem restart_persist_currentTerm (rf : Raft C me) :
    rf.persist.restart.currentTerm = rf.currentTerm := rfl

end Raft

namespace Cluster

variable {n : ℕ} {C : Type} {c : Cluster n C} {a : Action n C} {s : Fin n}
  {rf : Raft C s} {msgs : List (Msg n C)} {events : List (Event n C)}

/-! ## What a move does to terms and votes -/

/-- One answer more in an election round of `s`, or the round as it was: the
count rises only by a granted reply to a goroutine that was waiting. -/
def Tallied (c : Cluster n C) (s : Fin n) (k : ℕ) (e e' : Election n) : Prop :=
  e'.args = e.args ∧
    ((e'.voteCount = e.voteCount ∧ ∀ p ∈ e'.waiting, p ∈ e.waiting) ∨
      ∃ dst reply, .requestVoteReply s (c.nodes s).epoch k dst reply ∈ c.net ∧
        reply.voteGranted = true ∧ dst ∈ e.waiting ∧
        e'.voteCount = e.voteCount + 1 ∧ e'.waiting = e.waiting.filter (· ≠ dst))

theorem Tallied.refl (c : Cluster n C) (s : Fin n) (k : ℕ) (e : Election n) : Tallied c s k e e :=
  ⟨rfl, .inl ⟨rfl, fun _ hp => hp⟩⟩

/-- Server `s` drifts to `rf`: it may have observed a newer term and got answers
to its election rounds, but it has neither voted nor touched its log. -/
structure Drift (c : Cluster n C) (s : Fin n) (rf : Raft C s) : Prop where
  epoch : rf.epoch = (c.nodes s).epoch
  term : (c.nodes s).currentTerm ≤ rf.currentTerm
  vote : rf.currentTerm = (c.nodes s).currentTerm → rf.votedFor = (c.nodes s).votedFor
  logs : rf.logs = (c.nodes s).logs
  rounds : rf.elections.length = (c.nodes s).elections.length
  tally : ∀ k e', rf.elections[k]? = some e' →
    ∃ e, (c.nodes s).elections[k]? = some e ∧ Tallied c s k e e'

/-- A server that keeps these six fields drifts. -/
theorem Drift.of_eq (hepoch : rf.epoch = (c.nodes s).epoch)
    (hterm : rf.currentTerm = (c.nodes s).currentTerm)
    (hvote : rf.votedFor = (c.nodes s).votedFor) (hlogs : rf.logs = (c.nodes s).logs)
    (helections : rf.elections = (c.nodes s).elections) : Drift c s rf where
  epoch := hepoch
  term := hterm.ge
  vote := fun _ => hvote
  logs := hlogs
  rounds := by rw [helections]
  tally := fun k e' he' => ⟨e', helections ▸ he', Tallied.refl c s k e'⟩

/-- Observing a term is a drift on top of a drift. -/
theorem Drift.observeTerm {rf : Raft C s} (h : Drift c s rf) (t : ℕ) :
    Drift c s (rf.observeTerm t) where
  epoch := by rw [Raft.observeTerm_epoch]; exact h.epoch
  term := by rw [Raft.observeTerm_currentTerm]; exact h.term.trans (le_max_left _ _)
  vote := by
    intro heq
    rw [Raft.observeTerm_currentTerm] at heq
    have hle : t ≤ rf.currentTerm := by
      have h1 := h.term
      have h2 : t ≤ max rf.currentTerm t := le_max_right _ _
      omega
    rw [Raft.observeTerm_of_le hle]
    rw [max_eq_left hle] at heq
    exact h.vote heq
  logs := by rw [Raft.observeTerm_logs]; exact h.logs
  rounds := by rw [Raft.observeTerm_elections]; exact h.rounds
  tally := by rw [Raft.observeTerm_elections]; exact h.tally

/-- `persist` writes the disk only. -/
theorem Drift.persist {rf : Raft C s} (h : Drift c s rf) : Drift c s rf.persist :=
  ⟨h.epoch, h.term, h.vote, h.logs, h.rounds, h.tally⟩

/-- An answer to round `k` is a drift. -/
theorem Drift.answered {k : ℕ} {round : Election n} {dst : Fin n} {count : ℕ}
    (hround : (c.nodes s).elections[k]? = some round)
    (hcount : Tallied c s k round (round.answered dst count)) :
    Drift c s ((c.nodes s).answered k round dst count) where
  epoch := rfl
  term := le_rfl
  vote := fun _ => rfl
  logs := rfl
  rounds := by
    show ((c.nodes s).elections.set k _).length = _
    rw [List.length_set]
  tally := by
    intro i e' he'
    have he'' : ((c.nodes s).elections.set k (round.answered dst count))[i]? = some e' := he'
    by_cases hi : k = i
    · subst hi
      obtain ⟨hk, -⟩ := List.getElem?_eq_some_iff.mp hround
      rw [List.getElem?_set_self hk] at he''
      obtain rfl := Option.some.inj he''
      exact ⟨round, hround, hcount⟩
    · rw [List.getElem?_set_ne hi] at he''
      exact ⟨e', he'', Tallied.refl c s i e'⟩

/-- The reply that is not counted leaves a round as it was, less one waiting
goroutine. -/
theorem tallied_answered_zero (c : Cluster n C) (s : Fin n) (k : ℕ) (round : Election n)
    (dst : Fin n) : Tallied c s k round (round.answered dst 0) :=
  ⟨rfl, .inl ⟨rfl, fun _ hp => (List.mem_filter.mp hp).1⟩⟩

/-- What a server that drifts can send and show: no votes, no requests for
votes, no accepted append, and append requests only as a leader from its own
log. -/
structure Quiet (c : Cluster n C) (s : Fin n) (msgs : List (Msg n C))
    (events : List (Event n C)) : Prop where
  granted : ∀ {v T x}, .granted v T x ∉ events
  ballot : ∀ {v e k T}, .ballot v e k T ∉ events
  request : ∀ {src e k dst args}, .requestVote src e k dst args ∉ msgs
  append : ∀ {src e k dst args}, .appendEntries src e k dst args ∈ msgs →
    (c.nodes s).state = .leader ∧ ∃ (i : ℕ) (prev : LogEntry C),
      (c.nodes s).logs[i]? = some prev ∧ args = (c.nodes s).appendArgs i prev
  reply : ∀ {src e k dst reply}, .appendEntriesReply src e k dst reply ∈ msgs →
    reply.success = false

/-- Sending nothing is quiet. -/
theorem Quiet.nil (c : Cluster n C) (s : Fin n) : Quiet c s [] [] := by
  constructor <;> simp

/-- A reply to a vote request is quiet. -/
theorem Quiet.voteReply (c : Cluster n C) (s src : Fin n) (e k : ℕ) (dst : Fin n)
    (reply : RequestVoteReply) : Quiet c s [.requestVoteReply src e k dst reply] [] := by
  constructor <;> simp

/-- An unsuccessful reply to an append request is quiet. -/
theorem Quiet.appendReply (c : Cluster n C) (s src : Fin n) (e k : ℕ) (dst : Fin n)
    {reply : AppendEntriesReply} (h : reply.success = false) :
    Quiet c s [.appendEntriesReply src e k dst reply] [] := by
  refine ⟨by simp, by simp, by simp, by simp, ?_⟩
  intro src' e' k' dst' reply' hmem
  simp only [List.mem_singleton, Msg.appendEntriesReply.injEq] at hmem
  rw [hmem.2.2.2.2, h]

/-- The view of a move that elections and logs need: what becomes of the role,
the term, the vote, the election rounds and the log. -/
inductive CoreMove (c : Cluster n C) :
    Action n C → (s : Fin n) → Raft C s → List (Msg n C) → List (Event n C) → Prop where
  | drift (a : Action n C) (s : Fin n) (rf : Raft C s) (msgs : List (Msg n C))
      (events : List (Event n C)) (h : Drift c s rf)
      (hstate : rf.state = .follower ∨ rf.state = (c.nodes s).state ∧
        rf.currentTerm = (c.nodes s).currentTerm)
      (hquiet : Quiet c s msgs events) : CoreMove c a s rf msgs events
  | reboot (a : Action n C) (s : Fin n) (rf : Raft C s)
      (hepoch : rf.epoch = (c.nodes s).epoch + 1) (hstate : rf.state = .follower)
      (hterm : (c.nodes s).currentTerm ≤ rf.currentTerm)
      (hvote : rf.currentTerm = (c.nodes s).currentTerm → rf.votedFor = (c.nodes s).votedFor)
      (hlogs : rf.logs = (c.nodes s).logs) (helections : rf.elections = []) :
      CoreMove c a s rf [] []
  | campaign (s : Fin n) (last : LogEntry C)
      (hlast : (c.nodes s).logs[(c.nodes s).logs.length - 1]? = some last) :
      CoreMove c (.electionTimeout s) s ((c.nodes s).campaigned last)
        ((Raft.others s).map fun server =>
          .requestVote s (c.nodes s).epoch (c.nodes s).elections.length server
            ⟨(c.nodes s).currentTerm + 1, s, (c.nodes s).logs.length - 1, last.term⟩)
        [.ballot s (c.nodes s).epoch (c.nodes s).elections.length ((c.nodes s).currentTerm + 1)]
  | grant (m : ℕ) (src : Fin n) (e k : ℕ) (dst : Fin n) (args : RequestVoteArgs n)
      (last : LogEntry C)
      (hm : .requestVote src e k dst args ∈ c.net)
      (hrefuse : ¬ (c.nodes dst).refusesVote args)
      (hlast : (c.nodes dst).logs[(c.nodes dst).logs.length - 1]? = some last)
      (hup : ¬ (args.lastLogTerm < last.term ∨
        (args.lastLogTerm = last.term ∧ args.lastLogIndex < (c.nodes dst).logs.length - 1))) :
      CoreMove c (.deliver m) dst ((c.nodes dst).granted args)
        [.requestVoteReply src e k dst ⟨args.term, true⟩]
        [.granted dst args.term args.candidateId]
  | elect (m : ℕ) (src : Fin n) (k : ℕ) (dst : Fin n) (reply : RequestVoteReply)
      (round : Election n)
      (hm : c.net[m]? = some (.requestVoteReply src (c.nodes src).epoch k dst reply))
      (hround : (c.nodes src).elections[k]? = some round) (hwait : dst ∈ round.waiting)
      (hgranted : reply.voteGranted = true) (hstate : (c.nodes src).state = .candidate)
      (hcount : n / 2 < round.voteCount + 1)
      (hdrift : Drift c src ((c.nodes src).answered k round dst 1).elected) :
      CoreMove c (.deliver m) src ((c.nodes src).answered k round dst 1).elected [] []
  | accept (m : ℕ) (src : Fin n) (e k : ℕ) (dst : Fin n) (args : AppendEntriesArgs n C)
      (prev : LogEntry C)
      (hm : .appendEntries src e k dst args ∈ c.net)
      (hterm : (c.nodes dst).currentTerm ≤ args.term)
      (hprev : (c.nodes dst).logs[args.prevLogIndex]? = some prev)
      (hprevTerm : prev.term = args.prevLogTerm) :
      CoreMove c (.deliver m) dst ((c.nodes dst).accepted args)
        [.appendEntriesReply src e k dst { success := true }] []
  | append (s : Fin n) (k : ℕ) (p : PendingStart C) (hp : (c.nodes s).starts[k]? = some p)
      (rf : Raft C s)
      (hrf : rf = (((c.nodes s).startDone k).startAppend p).1) :
      CoreMove c (.startAppend s k) s rf [] []

/-- A server that keeps its role and what a drift keeps. -/
theorem CoreMove.of_eq (hquiet : Quiet c s msgs events) (hepoch : rf.epoch = (c.nodes s).epoch)
    (hterm : rf.currentTerm = (c.nodes s).currentTerm)
    (hvote : rf.votedFor = (c.nodes s).votedFor) (hlogs : rf.logs = (c.nodes s).logs)
    (helections : rf.elections = (c.nodes s).elections)
    (hstate : rf.state = (c.nodes s).state) : CoreMove c a s rf msgs events :=
  .drift a s rf msgs events (.of_eq hepoch hterm hvote hlogs helections) (.inr ⟨hstate, hterm⟩)
    hquiet

/-- A drift that observes a term, and may persist the result. -/
theorem CoreMove.observeTerm {rf : Raft C s} (h : Drift c s rf) (t : ℕ)
    (hstate : rf.state = (c.nodes s).state) (hterm : rf.currentTerm = (c.nodes s).currentTerm)
    (hquiet : Quiet c s msgs events) :
    CoreMove c a s (rf.observeTerm t).persist msgs events := by
  refine .drift a s _ msgs events (h.observeTerm t).persist ?_ hquiet
  by_cases ht : rf.currentTerm < t
  · exact .inl (Raft.observeTerm_state_of_lt ht)
  · rw [Raft.observeTerm_of_le (not_lt.mp ht)]
    exact .inr ⟨hstate, hterm⟩

variable [Inhabited C]

/-- A move keeps memory and persister in step. -/
theorem Move.synced (h : Move c a s rf msgs events) (hs : (c.nodes s).Synced) : rf.Synced := by
  cases h with
  | crash => exact Raft.synced_restart
  | handlerPanic => exact Raft.synced_restart
  | campaignPanic => exact Raft.synced_restart
  | campaign => exact Raft.synced_persist _
  | heartbeat =>
      unfold Raft.heartbeatTimeout
      split_ifs <;> exact hs
  | heartbeatSkip => exact hs
  | heartbeatSend => exact hs
  | voteRefuse => exact Raft.synced_persist _
  | voteBehind => exact Raft.synced_persist _
  | voteGrant => exact Raft.synced_persist _
  | voteCount => exact hs
  | voteElect => exact hs
  | voteOther m src k dst reply round hm hround rf hrf =>
      rcases hrf with rfl | ⟨-, rfl⟩
      · exact hs
      · exact Raft.synced_persist _
  | appendStale => exact Raft.synced_persist _
  | appendReject => exact Raft.synced_persist _
  | appendAccept => exact Raft.synced_persist _
  | replyMatch m src k reply call hm hcall hsuccess =>
      unfold Raft.matched
      split <;> exact hs
  | replyHigher => exact Raft.synced_persist _
  | replyBackoff => exact hs
  | startRead s command =>
      unfold Raft.startRead
      split_ifs <;> exact hs
  | startAppend => exact Raft.synced_persist _
  | applySend => exact hs
  | applyStore => exact hs

/-- Every move has a core view. -/
theorem Move.core (h : Move c a s rf msgs events) (hs : (c.nodes s).Synced) :
    CoreMove c a s rf msgs events := by
  have hself : Drift c s (c.nodes s) := .of_eq rfl rfl rfl rfl rfl
  have hnil : Quiet c s [] [] := .nil c s
  cases h with
  | crash =>
      obtain ⟨h1, h2, h3⟩ := Raft.restart_of_synced hs
      exact .reboot a s _ (Raft.restart_epoch _) (Raft.restart_state _) h1.ge (fun _ => h2) h3
        (Raft.restart_elections _)
  | handlerPanic m s t =>
      have hd := hself.observeTerm t
      exact .reboot _ s _ (by rw [Raft.restart_epoch, Raft.persist_epoch, hd.epoch])
        (Raft.restart_state _) hd.term hd.vote hd.logs (Raft.restart_elections _)
  | campaignPanic s rf hepoch hterm hlogs =>
      -- the new term was stored before the panic, so the old vote is not needed
      refine .reboot _ s _ (by rw [Raft.restart_epoch, Raft.persist_epoch, hepoch])
        (Raft.restart_state _) ?_ ?_ hlogs (Raft.restart_elections _)
      · rw [Raft.restart_persist_currentTerm, hterm]
        exact Nat.le_succ _
      · rw [Raft.restart_persist_currentTerm, hterm]
        intro heq
        omega
  | campaign s last hlast => exact .campaign s last hlast
  | heartbeat =>
      obtain ⟨hb, heq⟩ := (c.nodes s).heartbeatTimeout_shape
      rw [heq]
      exact .of_eq hnil rfl rfl rfl rfl rfl rfl
  | heartbeatSkip => exact .of_eq hnil rfl rfl rfl rfl rfl rfl
  | heartbeatSend s k server i prev hstate hprev =>
      refine .of_eq ⟨by simp, by simp, by simp, ?_, by simp⟩ rfl rfl rfl rfl rfl rfl
      intro src e k' dst args hmem
      simp only [List.mem_singleton, Msg.appendEntries.injEq] at hmem
      exact ⟨hstate, i, prev, hprev, hmem.2.2.2.2⟩
  | voteRefuse => exact .of_eq (.voteReply c s _ _ _ _ _) rfl rfl rfl rfl rfl rfl
  | voteBehind m src e k dst args hm =>
      exact .observeTerm hself args.term rfl rfl (.voteReply c s _ _ _ _ _)
  | voteGrant m src e k dst args last hm hrefuse hlast hup =>
      exact .grant m src e k s args last (List.mem_of_getElem? hm) hrefuse hlast hup
  | voteCount m src k dst reply round hm hround hwait hgranted hstate hcount =>
      exact .drift _ s _ [] [] (.answered hround ⟨rfl, .inr ⟨dst, reply, List.mem_of_getElem? hm,
        hgranted, hwait, rfl, rfl⟩⟩) (.inr ⟨rfl, rfl⟩) hnil
  | voteElect m src k dst reply round hm hround hwait hgranted hstate hcount =>
      have hd : Drift c s ((c.nodes s).answered k round dst 1) :=
        .answered hround ⟨rfl, .inr ⟨dst, reply, List.mem_of_getElem? hm, hgranted, hwait,
          rfl, rfl⟩⟩
      exact .elect m s k dst reply round hm hround hwait hgranted hstate hcount
        ⟨hd.epoch, hd.term, hd.vote, hd.logs, hd.rounds, hd.tally⟩
  | voteOther m src k dst reply round hm hround rf hrf =>
      have hd : Drift c s ((c.nodes s).answered k round dst 0) :=
        .answered hround (tallied_answered_zero c s k round dst)
      rcases hrf with rfl | ⟨-, rfl⟩
      · exact .drift _ s _ [] [] hd (.inr ⟨rfl, rfl⟩) hnil
      · exact .observeTerm hd reply.term rfl rfl hnil
  | appendStale => exact .of_eq (.appendReply c s _ _ _ _ rfl) rfl rfl rfl rfl rfl rfl
  | appendReject m src e k dst args reply hm hterm hreply hreplyTerm =>
      exact .observeTerm hself args.term rfl rfl (.appendReply c s _ _ _ _ hreply)
  | appendAccept m src e k dst args prev hm hterm hprev hprevTerm =>
      exact .accept m src e k s args prev (List.mem_of_getElem? hm) hterm hprev hprevTerm
  | replyMatch m src k reply call hm hcall hsuccess =>
      obtain ⟨ni, mi, ci, ap, heq⟩ :=
        ((c.nodes s).callDone k call).matched_shape call.server call.args
      rw [heq]
      exact .of_eq hnil rfl rfl rfl rfl rfl rfl
  | replyHigher m src k reply call hm hcall hterm =>
      have hd : Drift c s ((c.nodes s).callDone k call) := .of_eq rfl rfl rfl rfl rfl
      exact .observeTerm hd reply.term rfl rfl hnil
  | replyBackoff => exact .of_eq hnil rfl rfl rfl rfl rfl rfl
  | startRead s command =>
      obtain ⟨st, heq⟩ := (c.nodes s).startRead_shape command
      rw [heq]
      exact .of_eq hnil rfl rfl rfl rfl rfl rfl
  | startAppend s k p hp => exact .append s k p hp _ rfl
  | applySend =>
      exact .of_eq ⟨by simp, by simp, by simp, by simp, by simp⟩ rfl rfl rfl rfl rfl rfl
  | applyStore => exact .of_eq hnil rfl rfl rfl rfl rfl rfl

omit [Inhabited C] in
/-- No move lowers the term. -/
theorem CoreMove.currentTerm_le (h : CoreMove c a s rf msgs events) :
    (c.nodes s).currentTerm ≤ rf.currentTerm := by
  cases h with
  | drift a s rf msgs events h hstate hquiet => exact h.term
  | reboot a s rf hepoch hstate hterm hvote hlogs helections => exact hterm
  | campaign => exact Nat.le_succ _
  | grant m src e k dst args last hm hrefuse hlast hup =>
      show _ ≤ ((c.nodes s).observeTerm args.term).currentTerm
      rw [Raft.observeTerm_currentTerm]
      exact le_max_left _ _
  | elect m src k dst reply round hm hround hwait hgranted hstate hcount hdrift =>
      exact hdrift.term
  | accept =>
      rw [Raft.accepted_currentTerm]
      exact le_max_left _ _
  | append s k p hp rf hrf => rw [hrf]; rfl

omit [Inhabited C] in
/-- **What a move does to the log of its server**: nothing, or it merges the entries of a
request that fits, or a `Start` appends its command. -/
theorem CoreMove.logs_cases (h : CoreMove c a s rf msgs events) :
    rf.logs = (c.nodes s).logs ∨
    (∃ src e k args prev, .appendEntries src e k s args ∈ c.net ∧
      (c.nodes s).currentTerm ≤ args.term ∧ (c.nodes s).logs[args.prevLogIndex]? = some prev ∧
      prev.term = args.prevLogTerm ∧ rf.currentTerm = args.term ∧
      rf.logs = Raft.mergeLogs (c.nodes s).logs args) ∨
    ∃ k p, a = .startAppend s k ∧ (c.nodes s).starts[k]? = some p ∧
      rf.currentTerm = (c.nodes s).currentTerm ∧
      rf.logs = (c.nodes s).logs ++ [⟨p.command, p.term⟩] := by
  cases h with
  | drift a s rf msgs events h hstate hquiet => exact .inl h.logs
  | reboot a s rf hepoch hstate hterm hvote hlogs helections => exact .inl hlogs
  | campaign => exact .inl rfl
  | grant m src e k dst args last hm hrefuse hlast hup =>
      exact .inl (Raft.observeTerm_logs (c.nodes s) args.term)
  | elect m src k dst reply round hm hround hwait hgranted hstate hcount hdrift =>
      exact .inl hdrift.logs
  | accept m src e k dst args prev hm hle hprev hprevTerm =>
      obtain ⟨-, -, -, -, -, hlogs⟩ := Raft.accepted_core (c.nodes s) args
      refine .inr (.inl ⟨src, e, k, args, prev, hm, hle, hprev, hprevTerm, ?_, hlogs⟩)
      rw [Raft.accepted_currentTerm, max_eq_right hle]
  | append s k p hp rf hrf =>
      subst hrf
      exact .inr (.inr ⟨k, p, rfl, hp, rfl, rfl⟩)

omit [Inhabited C] in
/-- Within a term a vote stays. -/
theorem CoreMove.votedFor_eq (h : CoreMove c a s rf msgs events)
    (hterm : rf.currentTerm = (c.nodes s).currentTerm) {x : Fin n}
    (hx : (c.nodes s).votedFor = some x) : rf.votedFor = some x := by
  cases h with
  | drift a s rf msgs events h hstate hquiet => rw [h.vote hterm, hx]
  | reboot a s rf hepoch hstate hle hvote hlogs helections => rw [hvote hterm, hx]
  | campaign s last hlast =>
      have : (c.nodes s).currentTerm + 1 = (c.nodes s).currentTerm := hterm
      omega
  | grant m src e k dst args last hm hrefuse hlast hup =>
      have hle := Raft.le_of_not_refusesVote hrefuse
      have hmax : ((c.nodes s).observeTerm args.term).currentTerm = (c.nodes s).currentTerm := hterm
      rw [Raft.observeTerm_currentTerm, max_eq_right hle] at hmax
      -- the vote of this term is taken, so the request comes from its holder
      have hx' : some x = some args.candidateId := by
        by_contra hne
        exact hrefuse (.inr ⟨hmax, by rw [hx]; simp, by rw [hx]; exact hne⟩)
      rw [hx']
      rfl
  | elect m src k dst reply round hm hround hwait hgranted hstate hcount hdrift =>
      rw [hdrift.vote hterm, hx]
  | accept m src e k dst args prev hm hle hprev hprevTerm =>
      rw [(Raft.accepted_core _ _).2.1]
      rw [Raft.accepted_currentTerm, max_eq_right hle] at hterm
      rw [Raft.observeTerm_of_le hterm.le, hx]
  | append s k p hp rf hrf => rw [hrf]; exact hx

/-! ## Where votes and their messages come from -/

/-- A granted vote in the history. -/
theorem Move.granted_mem {v x : Fin n} {T : ℕ} (h : Move c a s rf msgs events)
    (hmem : .granted v T x ∈ events) :
    v = s ∧ ∃ (src : Fin n) (e k : ℕ) (args : RequestVoteArgs n),
      .requestVote src e k s args ∈ c.net ∧ ¬ (c.nodes s).refusesVote args ∧
      rf = (c.nodes s).granted args ∧ T = args.term ∧ x = args.candidateId := by
  cases h with
  | voteGrant m src e k dst args last hm hrefuse hlast hup =>
      simp only [List.mem_singleton, Event.granted.injEq] at hmem
      obtain ⟨rfl, rfl, rfl⟩ := hmem
      exact ⟨rfl, src, e, k, args, List.mem_of_getElem? hm, hrefuse, rfl, rfl, rfl⟩
  | _ => simp at hmem

/-- A ballot in the history. -/
theorem Move.ballot_mem {v : Fin n} {e k T : ℕ} (h : Move c a s rf msgs events)
    (hmem : .ballot v e k T ∈ events) :
    v = s ∧ e = (c.nodes s).epoch ∧ k = (c.nodes s).elections.length ∧
      T = (c.nodes s).currentTerm + 1 ∧ ∃ last, rf = (c.nodes s).campaigned last := by
  cases h with
  | campaign s last hlast =>
      simp only [List.mem_singleton, Event.ballot.injEq] at hmem
      obtain ⟨rfl, rfl, rfl, rfl⟩ := hmem
      exact ⟨rfl, rfl, rfl, rfl, last, rfl⟩
  | _ => simp at hmem

/-- A new vote request comes from a campaign. -/
theorem Move.requestVote_mem {src dst : Fin n} {e k : ℕ} {args : RequestVoteArgs n}
    (h : Move c a s rf msgs events) (hmem : .requestVote src e k dst args ∈ msgs) :
    src = s ∧ .ballot s e k args.term ∈ events ∧ ∃ last,
      (c.nodes s).logs[(c.nodes s).logs.length - 1]? = some last ∧
      rf = (c.nodes s).campaigned last ∧
      args = ⟨(c.nodes s).currentTerm + 1, s, (c.nodes s).logs.length - 1, last.term⟩ := by
  cases h with
  | campaign s last hlast =>
      simp only [List.mem_map, Msg.requestVote.injEq] at hmem
      obtain ⟨p, -, rfl, rfl, rfl, -, rfl⟩ := hmem
      exact ⟨rfl, by simp, last, hlast, rfl, rfl⟩
  | _ => simp at hmem

/-- A new vote reply answers a request; a granted one is in the history. -/
theorem Move.requestVoteReply_mem {src dst : Fin n} {e k : ℕ} {reply : RequestVoteReply}
    (h : Move c a s rf msgs events) (hmem : .requestVoteReply src e k dst reply ∈ msgs) :
    dst = s ∧ ∃ args, .requestVote src e k s args ∈ c.net ∧
      (reply.voteGranted = true → .granted s args.term args.candidateId ∈ events) := by
  cases h with
  | voteRefuse m src' e' k' dst' args hm =>
      simp only [List.mem_singleton, Msg.requestVoteReply.injEq] at hmem
      obtain ⟨rfl, rfl, rfl, rfl, rfl⟩ := hmem
      exact ⟨rfl, args, List.mem_of_getElem? hm, by simp⟩
  | voteBehind m src' e' k' dst' args hm =>
      simp only [List.mem_singleton, Msg.requestVoteReply.injEq] at hmem
      obtain ⟨rfl, rfl, rfl, rfl, rfl⟩ := hmem
      exact ⟨rfl, args, List.mem_of_getElem? hm, by simp⟩
  | voteGrant m src' e' k' dst' args last hm hrefuse hlast hup =>
      simp only [List.mem_singleton, Msg.requestVoteReply.injEq] at hmem
      obtain ⟨rfl, rfl, rfl, rfl, rfl⟩ := hmem
      exact ⟨rfl, args, List.mem_of_getElem? hm, by simp⟩
  | _ => simp at hmem

/-! ## The vote invariant -/

/-- Server `v` has given its vote of term `T` to `x`: in a granted reply, or to
itself in a ballot. -/
def Voted (c : Cluster n C) (v : Fin n) (T : ℕ) (x : Fin n) : Prop :=
  .granted v T x ∈ c.history ∨ (x = v ∧ ∃ e k, .ballot v e k T ∈ c.history)

/-- Every vote counted in a round was given to its candidate, by a server whose
goroutine has come back. -/
def Backed (c : Cluster n C) (s : Fin n) (e : Election n) : Prop :=
  ∃ V : Finset (Fin n), V.card = e.voteCount ∧
    ∀ v ∈ V, v ∉ e.waiting ∧ c.Voted v e.args.term s

/-- The vote invariant. -/
structure VoteInv (c : Cluster n C) : Prop where
  synced : ∀ s, (c.nodes s).Synced
  /-- A vote is remembered by its voter for as long as the term lasts. -/
  voted : ∀ {v T x}, c.Voted v T x → T < (c.nodes v).currentTerm ∨
    (T = (c.nodes v).currentTerm ∧ (c.nodes v).votedFor = some x)
  unique : ∀ {v T x y}, c.Voted v T x → c.Voted v T y → x = y
  /-- A ballot of an incarnation is one of its rounds. -/
  ballot_bound : ∀ {s e k T}, .ballot s e k T ∈ c.history → e ≤ (c.nodes s).epoch ∧
    (e = (c.nodes s).epoch → k < (c.nodes s).elections.length)
  ballot_round : ∀ {s e k T T'}, .ballot s e k T ∈ c.history → .ballot s e k T' ∈ c.history →
    T = T'
  ballot_term : ∀ {s e k e' k' T}, .ballot s e k T ∈ c.history → .ballot s e' k' T ∈ c.history →
    e = e' ∧ k = k'
  round : ∀ {s} {k : ℕ} {e}, (c.nodes s).elections[k]? = some e →
    .ballot s (c.nodes s).epoch k e.args.term ∈ c.history
  backed : ∀ {s} {k : ℕ} {e}, (c.nodes s).elections[k]? = some e → c.Backed s e
  request : ∀ {src e k dst args}, .requestVote src e k dst args ∈ c.net →
    args.candidateId = src ∧ .ballot src e k args.term ∈ c.history
  reply : ∀ {src e k dst reply}, .requestVoteReply src e k dst reply ∈ c.net →
    ∃ T, .ballot src e k T ∈ c.history ∧ (reply.voteGranted = true → c.Voted dst T src)

theorem voteInv_init : VoteInv (Cluster.init n C) where
  synced := fun s => ⟨rfl, rfl, rfl⟩
  voted := by rintro v T x (h | ⟨-, e, k, h⟩) <;> simp [init] at h
  unique := by rintro v T x y (h | ⟨-, e, k, h⟩) <;> simp [init] at h
  ballot_bound := by intro s e k T h; simp [init] at h
  ballot_round := by intro s e k T T' h; simp [init] at h
  ballot_term := by intro s e k e' k' T h; simp [init] at h
  round := by intro s k e h; simp [init, Raft.make, Raft.readPersist] at h
  backed := by intro s k e h; simp [init, Raft.make, Raft.readPersist] at h
  request := by intro src e k dst args h; simp [init] at h
  reply := by intro src e k dst reply h; simp [init] at h

omit [Inhabited C] in
/-- A vote stays in the history. -/
theorem Voted.put {v x : Fin n} {T : ℕ} (h : c.Voted v T x) (s : Fin n) (rf : Raft C s)
    (msgs : List (Msg n C)) (events : List (Event n C)) :
    (c.put s rf msgs events).Voted v T x := by
  rcases h with h | ⟨rfl, e, k, h⟩
  · exact .inl (List.mem_append_left _ h)
  · exact .inr ⟨rfl, e, k, List.mem_append_left _ h⟩

omit [Inhabited C] in
theorem Backed.put {t : Fin n} {e : Election n} (h : c.Backed t e) (s : Fin n) (rf : Raft C s)
    (msgs : List (Msg n C)) (events : List (Event n C)) :
    (c.put s rf msgs events).Backed t e := by
  obtain ⟨V, hcard, hV⟩ := h
  exact ⟨V, hcard, fun v hv => ⟨(hV v hv).1, (hV v hv).2.put s rf msgs events⟩⟩

/-- **A new vote fits the old ones**: it is of the voter's new term, the voter
remembers it, and an earlier vote of the same term was for the same candidate. -/
theorem Move.newVote {v x : Fin n} {T : ℕ} (h : Move c a s rf msgs events)
    (hv : (c.put s rf msgs events).Voted v T x) :
    c.Voted v T x ∨ (v = s ∧ T = rf.currentTerm ∧ rf.votedFor = some x ∧
      (c.nodes s).currentTerm ≤ T ∧
      ((c.nodes s).currentTerm = T → ∀ y, (c.nodes s).votedFor = some y → y = x)) := by
  rcases hv with hv | ⟨rfl, e, k, hv⟩
  · rcases List.mem_append.mp hv with hold | hnew
    · exact .inl (.inl hold)
    · obtain ⟨rfl, src, e, k, args, -, hrefuse, rfl, rfl, rfl⟩ := h.granted_mem hnew
      have hle := Raft.le_of_not_refusesVote hrefuse
      refine .inr ⟨rfl, ?_, rfl, hle, fun heq y hy => ?_⟩
      · show _ = ((c.nodes v).observeTerm args.term).currentTerm
        rw [Raft.observeTerm_currentTerm, max_eq_right hle]
      · by_contra hne
        refine hrefuse (.inr ⟨heq.symm, by rw [hy]; simp, ?_⟩)
        rw [hy]
        simpa using hne
  · rcases List.mem_append.mp hv with hold | hnew
    · exact .inl (.inr ⟨rfl, e, k, hold⟩)
    · obtain ⟨rfl, rfl, rfl, rfl, last, rfl⟩ := h.ballot_mem hnew
      exact .inr ⟨rfl, rfl, rfl, Nat.le_succ _, fun heq => absurd heq (by omega)⟩

omit [Inhabited C] in
/-- A new election round, or one that was there with at most one answer more. -/
theorem CoreMove.round_cases (h : CoreMove c a s rf msgs events) {k : ℕ} {e' : Election n}
    (he' : rf.elections[k]? = some e') :
    (rf.epoch = (c.nodes s).epoch ∧ ∃ e, (c.nodes s).elections[k]? = some e ∧ Tallied c s k e e') ∨
    (a = .electionTimeout s ∧ rf.epoch = (c.nodes s).epoch ∧
      k = (c.nodes s).elections.length ∧ e'.args.term = (c.nodes s).currentTerm + 1 ∧
      e'.voteCount = 1 ∧ e'.waiting = Raft.others s) := by
  have hkeep : rf.epoch = (c.nodes s).epoch → rf.elections = (c.nodes s).elections →
      (rf.epoch = (c.nodes s).epoch ∧
        ∃ e, (c.nodes s).elections[k]? = some e ∧ Tallied c s k e e') := by
    intro hepoch heq
    rw [heq] at he'
    exact ⟨hepoch, e', he', Tallied.refl c s k e'⟩
  cases h with
  | drift a s rf msgs events h hstate hquiet => exact .inl ⟨h.epoch, h.tally k e' he'⟩
  | reboot a s rf hepoch hstate hterm hvote hlogs helections => simp [helections] at he'
  | campaign s last hlast =>
      have he'' : ((c.nodes s).elections ++
          [⟨⟨(c.nodes s).currentTerm + 1, s, (c.nodes s).logs.length - 1, last.term⟩, 1,
            Raft.others s⟩])[k]? = some e' := he'
      rcases lt_or_ge k (c.nodes s).elections.length with hk | hk
      · rw [List.getElem?_append_left hk] at he''
        exact .inl ⟨rfl, e', he'', Tallied.refl c s k e'⟩
      · rw [List.getElem?_append_right hk] at he''
        have hk0 : k - (c.nodes s).elections.length = 0 := by
          by_contra hne
          rw [List.getElem?_eq_none (by simp; omega)] at he''
          simp at he''
        rw [hk0] at he''
        obtain rfl := Option.some.inj he''
        exact .inr ⟨rfl, rfl, by omega, rfl, rfl, rfl⟩
  | grant => exact .inl (hkeep (Raft.observeTerm_epoch _ _) (Raft.observeTerm_elections _ _))
  | elect m src k' dst reply round hm hround hwait hgranted hstate hcount hdrift =>
      exact .inl ⟨hdrift.epoch, hdrift.tally k e' he'⟩
  | accept m src e k' dst args prev hm hterm hprev hprevTerm =>
      obtain ⟨h1, -, -, h2, -⟩ := Raft.accepted_core (c.nodes s) args
      exact .inl (hkeep h1 h2)
  | append s k' p hp rf hrf =>
      subst hrf
      exact .inl (hkeep rfl rfl)

omit [Inhabited C] in
/-- An incarnation keeps its rounds; a new incarnation has a larger number. -/
theorem CoreMove.epoch_cases (h : CoreMove c a s rf msgs events) :
    (rf.epoch = (c.nodes s).epoch ∧
      (c.nodes s).elections.length ≤ rf.elections.length) ∨
    rf.epoch = (c.nodes s).epoch + 1 := by
  cases h with
  | drift a s rf msgs events h hstate hquiet => exact .inl ⟨h.epoch, h.rounds.ge⟩
  | reboot a s rf hepoch hstate hterm hvote hlogs helections => exact .inr hepoch
  | campaign s last hlast => exact .inl ⟨rfl, by simp [Raft.campaigned]⟩
  | grant =>
      exact .inl ⟨Raft.observeTerm_epoch _ _, (congrArg _ (Raft.observeTerm_elections _ _)).ge⟩
  | elect m src k' dst reply round hm hround hwait hgranted hstate hcount hdrift =>
      exact .inl ⟨hdrift.epoch, hdrift.rounds.ge⟩
  | accept m src e k' dst args prev hm hterm hprev hprevTerm =>
      obtain ⟨h1, -, -, h2, -⟩ := Raft.accepted_core (c.nodes s) args
      exact .inl ⟨h1, (congrArg _ h2).ge⟩
  | append s k' p hp rf hrf =>
      subst hrf
      exact .inl ⟨rfl, le_rfl⟩

/-- An expiry of the election timer that leaves an election round is noted as a
ballot. -/
theorem Move.ballot_event (h : Move c a s rf msgs events) (ha : a = .electionTimeout s)
    {k : ℕ} {e : Election n} (he : rf.elections[k]? = some e) :
    .ballot s (c.nodes s).epoch (c.nodes s).elections.length ((c.nodes s).currentTerm + 1)
      ∈ events := by
  subst ha
  cases h with
  | campaign last hlast => simp
  | crash => simp at he
  | campaignPanic rf hepoch hterm hlogs => simp at he

/-- The persister stays in step with memory everywhere. -/
theorem VoteInv.put_synced (hi : VoteInv c) (h : Move c a s rf msgs events) (t : Fin n) :
    ((c.put s rf msgs events).nodes t).Synced :=
  forall_put.mpr ⟨h.synced (hi.synced s), fun t _ => hi.synced t⟩ t

/-- Votes are remembered after a move. -/
theorem VoteInv.put_voted (hi : VoteInv c) (h : Move c a s rf msgs events) {v x : Fin n} {T : ℕ}
    (hv : (c.put s rf msgs events).Voted v T x) :
    T < ((c.put s rf msgs events).nodes v).currentTerm ∨
      (T = ((c.put s rf msgs events).nodes v).currentTerm ∧
        ((c.put s rf msgs events).nodes v).votedFor = some x) := by
  have hcore := h.core (hi.synced s)
  rcases h.newVote hv with hold | ⟨rfl, hT, hx, -⟩
  · by_cases hs : v = s
    · -- the voter moves: it keeps its vote as long as it keeps its term
      subst hs
      rw [put_nodes_self]
      have hle := hcore.currentTerm_le
      rcases hi.voted hold with hlt | ⟨rfl, hx⟩
      · exact .inl (hlt.trans_le hle)
      · rcases hle.lt_or_eq with hlt | heq
        · exact .inl hlt
        · exact .inr ⟨heq, hcore.votedFor_eq heq.symm hx⟩
    · rw [put_nodes_of_ne c hs]
      exact hi.voted hold
  · rw [put_nodes_self]
    exact .inr ⟨hT, hx⟩

/-- An old vote and a new one of the same voter and term agree. -/
theorem VoteInv.old_new (hi : VoteInv c) {v x y : Fin n} {T : ℕ} (hx : c.Voted v T x)
    (hle : (c.nodes v).currentTerm ≤ T)
    (hy : (c.nodes v).currentTerm = T → ∀ z, (c.nodes v).votedFor = some z → z = y) : x = y := by
  rcases hi.voted hx with hlt | ⟨heq, hvote⟩
  · omega
  · exact hy heq.symm x hvote

/-- After a move, a server still votes for one candidate in a term. -/
theorem VoteInv.put_unique (hi : VoteInv c) (h : Move c a s rf msgs events) {v x y : Fin n}
    {T : ℕ} (hx : (c.put s rf msgs events).Voted v T x)
    (hy : (c.put s rf msgs events).Voted v T y) : x = y := by
  -- two new votes are the one vote that the server holds after the move
  rcases h.newVote hx with hox | ⟨rfl, -, hvx, hle, hnx⟩
  · rcases h.newVote hy with hoy | ⟨rfl, -, -, hle, hny⟩
    · exact hi.unique hox hoy
    · exact hi.old_new hox hle hny
  · rcases h.newVote hy with hoy | ⟨-, -, hvy, -⟩
    · exact (hi.old_new hoy hle hnx).symm
    · exact Option.some.inj (hvx.symm.trans hvy)

/-- A ballot after a move is an old one, or the next round of the server that
moved, in a term it has not reached before. -/
theorem Move.ballot_cases {t : Fin n} {e k T : ℕ} (h : Move c a s rf msgs events)
    (hb : .ballot t e k T ∈ (c.put s rf msgs events).history) :
    .ballot t e k T ∈ c.history ∨
    (t = s ∧ e = (c.nodes s).epoch ∧ k = (c.nodes s).elections.length ∧
      T = (c.nodes s).currentTerm + 1 ∧ ∃ last, rf = (c.nodes s).campaigned last) := by
  rcases List.mem_append.mp hb with hold | hnew
  · exact .inl hold
  · exact .inr (h.ballot_mem hnew)

/-- Ballots stay within the rounds of their incarnation. -/
theorem VoteInv.put_ballot_bound (hi : VoteInv c) (h : Move c a s rf msgs events) {t : Fin n}
    {e k T : ℕ} (hb : .ballot t e k T ∈ (c.put s rf msgs events).history) :
    e ≤ ((c.put s rf msgs events).nodes t).epoch ∧
      (e = ((c.put s rf msgs events).nodes t).epoch →
        k < ((c.put s rf msgs events).nodes t).elections.length) := by
  rcases h.ballot_cases hb with hold | ⟨rfl, rfl, rfl, -, last, rfl⟩
  · obtain ⟨hle, hk⟩ := hi.ballot_bound hold
    by_cases hs : t = s
    · subst hs
      rw [put_nodes_self]
      rcases (h.core (hi.synced t)).epoch_cases with ⟨heq, hlen⟩ | heq
      · rw [heq]
        exact ⟨hle, fun he => (hk he).trans_le hlen⟩
      · -- a new incarnation: all ballots are of earlier ones
        rw [heq]
        exact ⟨by omega, fun he => by omega⟩
    · rw [put_nodes_of_ne c hs]
      exact ⟨hle, hk⟩
  · rw [put_nodes_self]
    exact ⟨le_rfl, fun _ => by simp [Raft.campaigned]⟩

/-- A ballot of the next round is not in the history yet. -/
theorem VoteInv.no_next_round (hi : VoteInv c) {s : Fin n} {T : ℕ} :
    .ballot s (c.nodes s).epoch (c.nodes s).elections.length T ∉ c.history :=
  fun hb => lt_irrefl _ ((hi.ballot_bound hb).2 rfl)

/-- A ballot of the next term is not in the history yet. -/
theorem VoteInv.no_next_term (hi : VoteInv c) {s : Fin n} {e k : ℕ} :
    .ballot s e k ((c.nodes s).currentTerm + 1) ∉ c.history := by
  intro hb
  rcases hi.voted (.inr ⟨rfl, e, k, hb⟩) with hlt | ⟨heq, -⟩ <;> omega

theorem VoteInv.put_ballot_round (hi : VoteInv c) (h : Move c a s rf msgs events) {t : Fin n}
    {e k T T' : ℕ} (hb : .ballot t e k T ∈ (c.put s rf msgs events).history)
    (hb' : .ballot t e k T' ∈ (c.put s rf msgs events).history) : T = T' := by
  rcases h.ballot_cases hb with hold | ⟨rfl, rfl, rfl, rfl, -⟩
  · rcases h.ballot_cases hb' with hold' | ⟨rfl, rfl, rfl, -⟩
    · exact hi.ballot_round hold hold'
    · exact absurd hold hi.no_next_round
  · rcases h.ballot_cases hb' with hold' | ⟨-, -, -, rfl, -⟩
    · exact absurd hold' hi.no_next_round
    · rfl

theorem VoteInv.put_ballot_term (hi : VoteInv c) (h : Move c a s rf msgs events) {t : Fin n}
    {e k e' k' T : ℕ} (hb : .ballot t e k T ∈ (c.put s rf msgs events).history)
    (hb' : .ballot t e' k' T ∈ (c.put s rf msgs events).history) : e = e' ∧ k = k' := by
  rcases h.ballot_cases hb with hold | ⟨rfl, rfl, rfl, rfl, -⟩
  · rcases h.ballot_cases hb' with hold' | ⟨rfl, -, -, rfl, -⟩
    · exact hi.ballot_term hold hold'
    · exact absurd hold hi.no_next_term
  · rcases h.ballot_cases hb' with hold' | ⟨-, rfl, rfl, -⟩
    · exact absurd hold' hi.no_next_term
    · exact ⟨rfl, rfl⟩

/-- Every round of the moved server is noted and backed. -/
theorem VoteInv.put_round_self (hi : VoteInv c) (h : Move c a s rf msgs events) {k : ℕ}
    {e' : Election n} (he' : rf.elections[k]? = some e') :
    .ballot s rf.epoch k e'.args.term ∈ (c.put s rf msgs events).history ∧
      (c.put s rf msgs events).Backed s e' := by
  rcases (h.core (hi.synced s)).round_cases he' with
    ⟨hepoch, e, he, hargs, htally⟩ | ⟨ha, hepoch, rfl, hterm, hcount, hwaiting⟩
  · have hround := hi.round he
    obtain ⟨V, hcard, hV⟩ := hi.backed he
    refine ⟨by rw [hepoch, hargs]; exact List.mem_append_left _ hround, ?_⟩
    rcases htally with ⟨hcount, hsub⟩ | ⟨dst, reply, hm, hgranted, hwait, hcount, hwaiting⟩
    · refine ⟨V, hcard.trans hcount.symm, fun v hv => ⟨fun hmem => (hV v hv).1 (hsub v hmem), ?_⟩⟩
      rw [hargs]
      exact (hV v hv).2.put s rf msgs events
    · -- the new voter was still awaited, so it is not among the voters counted so far
      have hdst : dst ∉ V := fun hv => (hV dst hv).1 hwait
      obtain ⟨T, hb, hvote⟩ := hi.reply hm
      obtain rfl := hi.ballot_round hb hround
      refine ⟨insert dst V, by rw [Finset.card_insert_of_notMem hdst, hcard, hcount], ?_⟩
      intro v hv
      rw [hwaiting, hargs]
      rcases Finset.mem_insert.mp hv with rfl | hv
      · exact ⟨by simp, (hvote hgranted).put s rf msgs events⟩
      · exact ⟨fun hmem => (hV v hv).1 (List.mem_filter.mp hmem).1,
          (hV v hv).2.put s rf msgs events⟩
  · have hb := List.mem_append_right c.history (h.ballot_event ha he')
    rw [← hterm, ← hepoch] at hb
    refine ⟨hb, {s}, by rw [hcount, Finset.card_singleton], fun v hv => ?_⟩
    obtain rfl := Finset.mem_singleton.mp hv
    exact ⟨by rw [hwaiting]; simp [Raft.others], .inr ⟨rfl, _, _, hb⟩⟩

theorem VoteInv.put_round (hi : VoteInv c) (h : Move c a s rf msgs events) {t : Fin n} {k : ℕ}
    {e : Election n} (he : ((c.put s rf msgs events).nodes t).elections[k]? = some e) :
    .ballot t ((c.put s rf msgs events).nodes t).epoch k e.args.term
        ∈ (c.put s rf msgs events).history ∧
      (c.put s rf msgs events).Backed t e := by
  by_cases hs : t = s
  · subst hs
    rw [put_nodes_self] at he ⊢
    exact hi.put_round_self h he
  · rw [put_nodes_of_ne c hs] at he ⊢
    exact ⟨List.mem_append_left _ (hi.round he), (hi.backed he).put s rf msgs events⟩

theorem VoteInv.put_request (hi : VoteInv c) (h : Move c a s rf msgs events) {src dst : Fin n}
    {e k : ℕ} {args : RequestVoteArgs n}
    (hm : .requestVote src e k dst args ∈ (c.put s rf msgs events).net) :
    args.candidateId = src ∧ .ballot src e k args.term ∈ (c.put s rf msgs events).history := by
  rcases List.mem_append.mp hm with hold | hnew
  · obtain ⟨hsrc, hb⟩ := hi.request hold
    exact ⟨hsrc, List.mem_append_left _ hb⟩
  · obtain ⟨rfl, hb, last, -, -, hargs⟩ := h.requestVote_mem hnew
    exact ⟨by rw [hargs], List.mem_append_right _ hb⟩

theorem VoteInv.put_reply (hi : VoteInv c) (h : Move c a s rf msgs events) {src dst : Fin n}
    {e k : ℕ} {reply : RequestVoteReply}
    (hm : .requestVoteReply src e k dst reply ∈ (c.put s rf msgs events).net) :
    ∃ T, .ballot src e k T ∈ (c.put s rf msgs events).history ∧
      (reply.voteGranted = true → (c.put s rf msgs events).Voted dst T src) := by
  rcases List.mem_append.mp hm with hold | hnew
  · obtain ⟨T, hb, hvote⟩ := hi.reply hold
    exact ⟨T, List.mem_append_left _ hb, fun hg => (hvote hg).put s rf msgs events⟩
  · obtain ⟨rfl, args, hreq, hevent⟩ := h.requestVoteReply_mem hnew
    obtain ⟨rfl, hb⟩ := hi.request hreq
    exact ⟨args.term, List.mem_append_left _ hb,
      fun hg => .inl (List.mem_append_right _ (hevent hg))⟩

/-- **Every step keeps the vote invariant.** -/
theorem VoteInv.step {c' : Cluster n C} (hi : VoteInv c) (hstep : c.step a = some c') :
    VoteInv c' := by
  obtain ⟨s, rf, msgs, events, rfl, h⟩ := step_move hstep
  exact {
    synced := hi.put_synced h
    voted := hi.put_voted h
    unique := hi.put_unique h
    ballot_bound := hi.put_ballot_bound h
    ballot_round := hi.put_ballot_round h
    ballot_term := hi.put_ballot_term h
    round := fun he => (hi.put_round h he).1
    backed := fun he => (hi.put_round h he).2
    request := hi.put_request h
    reply := hi.put_reply h }

end Cluster

/-! ## Whole runs -/

section Runs

variable {n : ℕ} {C : Type} [Inhabited C]

/-- The vote invariant holds at every moment of every run. -/
theorem voteInv_run (r : (raftSystem n C).Run) (k : ℕ) : (r.state k).VoteInv :=
  r.invariant r.meets_true Cluster.voteInv_init (fun _ _ _ hi _ h => hi.step h) k

/-- What the observer has noted stays noted. -/
theorem history_mono (r : (raftSystem n C).Run) {j k : ℕ} (hjk : j ≤ k) :
    (r.state j).history <+: (r.state k).history := by
  refine r.rel_of_le r.meets_true (R := fun c c' => c.history <+: c'.history)
    (fun _ => List.prefix_rfl) (fun _ _ _ => List.IsPrefix.trans) ?_ hjk
  intro i a _ _ hstep
  obtain ⟨s, rf, msgs, events, heq, -⟩ := Cluster.step_move hstep
  rw [heq]
  exact List.prefix_append _ _

/-- A vote given is given for the rest of the run. -/
theorem voted_of_le (r : (raftSystem n C).Run) {j k : ℕ} (hjk : j ≤ k) {v x : Fin n} {T : ℕ}
    (h : (r.state j).Voted v T x) : (r.state k).Voted v T x := by
  have hsub := (history_mono r hjk).subset
  rcases h with h | ⟨rfl, e, i, h⟩
  · exact .inl (hsub h)
  · exact .inr ⟨rfl, e, i, hsub h⟩

/-- Terms only grow, across crashes as well. -/
theorem currentTerm_of_le (r : (raftSystem n C).Run) (s : Fin n) {j k : ℕ} (hjk : j ≤ k) :
    ((r.state j).nodes s).currentTerm ≤ ((r.state k).nodes s).currentTerm := by
  refine r.rel_of_le r.meets_true
    (R := fun c c' => (c.nodes s).currentTerm ≤ (c'.nodes s).currentTerm)
    (fun _ => le_rfl) (fun _ _ _ => le_trans) ?_ hjk
  intro i a _ _ hstep
  obtain ⟨t, rf, msgs, events, heq, h⟩ := Cluster.step_move hstep
  rw [heq]
  by_cases hs : s = t
  · subst hs
    rw [Cluster.put_nodes_self]
    exact (h.core ((voteInv_run r i).synced s)).currentTerm_le
  · rw [Cluster.put_nodes_of_ne _ hs]

/-- Two candidates that a majority has voted for in the same term, at whatever
moments, are the same. -/
theorem majority_unique (r : (raftSystem n C).Run) {j k : ℕ} {s t : Fin n} {T : ℕ}
    {P Q : Finset (Fin n)} (hP : IsMajority P) (hQ : IsMajority Q)
    (hs : ∀ v ∈ P, (r.state j).Voted v T s) (ht : ∀ v ∈ Q, (r.state k).Voted v T t) : s = t := by
  obtain ⟨v, hvP, hvQ⟩ := hP.inter hQ
  exact (voteInv_run r (max j k)).unique (voted_of_le r (le_max_left j k) (hs v hvP))
    (voted_of_le r (le_max_right j k) (ht v hvQ))

/-- A round that has counted more than half of the servers was voted for by a
majority. -/
theorem majority_of_count {c : Cluster n C} (hi : c.VoteInv) {s : Fin n} {k : ℕ} {e : Election n}
    (he : (c.nodes s).elections[k]? = some e) (hcount : n / 2 < e.voteCount) :
    ∃ V : Finset (Fin n), IsMajority V ∧ ∀ v ∈ V, c.Voted v e.args.term s := by
  obtain ⟨V, hcard, hV⟩ := hi.backed he
  exact ⟨V, isMajority_of_half_lt (by omega), fun v hv => (hV v hv).2⟩

/-- **Vote uniqueness across crashes.**  In every run: no server's term ever
decreases; all the votes of a server in one term go to the same candidate; and
two election rounds of the same term that have both counted more than half of
the servers, at whatever moments, are the same round of the same incarnation of
the same server. -/
theorem vote_uniqueness (r : (raftSystem n C).Run) :
    (∀ j k, j ≤ k → ∀ s,
      ((r.state j).nodes s).currentTerm ≤ ((r.state k).nodes s).currentTerm) ∧
    (∀ j k v T x y, (r.state j).Voted v T x → (r.state k).Voted v T y → x = y) ∧
    (∀ (j k : ℕ) (s t : Fin n) (i i' : ℕ) (e e' : Election n),
      ((r.state j).nodes s).elections[i]? = some e → n / 2 < e.voteCount →
      ((r.state k).nodes t).elections[i']? = some e' → n / 2 < e'.voteCount →
      e.args.term = e'.args.term →
      s = t ∧ ((r.state j).nodes s).epoch = ((r.state k).nodes t).epoch ∧ i = i') := by
  refine ⟨fun j k hjk s => currentTerm_of_le r s hjk, ?_, ?_⟩
  · intro j k v T x y hx hy
    exact (voteInv_run r (max j k)).unique (voted_of_le r (le_max_left j k) hx)
      (voted_of_le r (le_max_right j k) hy)
  · intro j k s t i i' e e' he hcount he' hcount' hterm
    obtain ⟨P, hP, hs⟩ := majority_of_count (voteInv_run r j) he hcount
    obtain ⟨Q, hQ, ht⟩ := majority_of_count (voteInv_run r k) he' hcount'
    rw [← hterm] at ht
    obtain rfl := majority_unique r hP hQ hs ht
    have hb := (history_mono r (le_max_left j k)).subset ((voteInv_run r j).round he)
    have hb' := (history_mono r (le_max_right j k)).subset ((voteInv_run r k).round he')
    rw [← hterm] at hb'
    obtain ⟨hepoch, hround⟩ := (voteInv_run r (max j k)).ballot_term hb hb'
    exact ⟨rfl, hepoch, hround⟩

/-- Clusters of three servers; named, so that the server literals of the runs below are free
of proofs. -/
instance neZeroThree : NeZero 3 := ⟨by decide⟩

/-- An election of three servers that server `0` wins after a crash of its voter,
and then an election of server `1`. -/
def crashElection : (raftSystem 3 ℕ).Run :=
  (raftSystem 3 ℕ).ofList
    [.electionTimeout 0, .deliver 0, .crash 1, .deliver 2, .electionTimeout 1]

/-- The round of server `0` has counted two votes of term `1`, the vote of server
`1` survives its crash, and both are the only ones of the term. -/
theorem vote_uniqueness_crashElection :
    ((crashElection.state 2).nodes 1).currentTerm ≤ ((crashElection.state 5).nodes 1).currentTerm ∧
    ((crashElection.state 5).Voted 1 1 0 ∧ ∀ x, (crashElection.state 5).Voted 1 1 x → x = 0) ∧
    (((crashElection.state 4).nodes 0).elections = [⟨⟨1, 0, 0, 0⟩, 2, [2]⟩] ∧
      ∀ (k : ℕ) (t : Fin 3) (i : ℕ) (e : Election 3),
        ((crashElection.state k).nodes t).elections[i]? = some e → 1 < e.voteCount →
        1 = e.args.term → 0 = t ∧ 0 = i) := by
  obtain ⟨hterm, hvote, hround⟩ := vote_uniqueness crashElection
  have hgranted : (crashElection.state 5).Voted 1 1 0 := .inl (by decide)
  refine ⟨hterm 2 5 (by decide) 1, ⟨hgranted, ?_⟩, by decide, ?_⟩
  · intro x hx
    exact hvote 5 5 1 1 x 0 hx hgranted
  · intro k t i e he hcount hterm
    obtain ⟨hs, -, hi⟩ := hround 4 k 0 t 0 i ⟨⟨1, 0, 0, 0⟩, 2, [2]⟩ e (by decide)
      (by decide) he hcount hterm
    exact ⟨hs, hi⟩

/-- **Disk equals memory.**  In every run, whenever no server is inside a critical
section, the persister of a server decodes to exactly its term, vote and log, or it
is empty and these are still what `Make` starts with; so a crash and restart at that
point changes none of the three. -/
theorem disk_eq_memory (r : (raftSystem n C).Run) (k : ℕ) (s : Fin n) :
    (((r.state k).nodes s).persister = some ⟨((r.state k).nodes s).currentTerm,
        ((r.state k).nodes s).votedFor, ((r.state k).nodes s).logs⟩ ∨
      ((r.state k).nodes s).persister = none ∧ ((r.state k).nodes s).currentTerm = 0 ∧
        ((r.state k).nodes s).votedFor = none ∧ ((r.state k).nodes s).logs = [default]) ∧
    ((r.state k).nodes s).restart.currentTerm = ((r.state k).nodes s).currentTerm ∧
    ((r.state k).nodes s).restart.votedFor = ((r.state k).nodes s).votedFor ∧
    ((r.state k).nodes s).restart.logs = ((r.state k).nodes s).logs := by
  have hsynced := (voteInv_run r k).synced s
  refine ⟨?_, Raft.restart_of_synced hsynced⟩
  unfold Raft.Synced at hsynced
  rcases hp : ((r.state k).nodes s).persister with _ | d
  · rw [hp] at hsynced
    exact .inr ⟨rfl, hsynced⟩
  · rw [hp] at hsynced
    exact .inl (congrArg some hsynced)

end Runs

end Mit6824
