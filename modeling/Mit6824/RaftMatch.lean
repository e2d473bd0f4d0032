/-
# The leader's bookkeeping: what `matchIndex` stands for

A successful reply makes the server record `PrevLogIndex + len(Entries)` of the
request that the reply answers, in whatever role and term the server is by then.
When a leader records only replies to requests of its current term
(`FreshReply`), what it has recorded for a peer was acknowledged by that peer in
this very term (`Matched`), and what is acknowledged in a term is stored as long
as the peer stays in it.  So the entries up to `matchIndex` are in both logs
(`matchIndex_truthful`); `staleMatch` is a run in which an old reply makes the
leader record entries that it does not have itself.
-/
import Mit6824.RaftLog
import Mit6824.RaftReplica

namespace Mit6824

namespace Cluster

variable {n : ℕ} {C : Type} {c : Cluster n C} {a : Action n C} {s : Fin n}
  {rf : Raft C s} {msgs : List (Msg n C)} {events : List (Event n C)}
  {σ σ' : TermLog.State (Fin n) (LogEntry C)}

open TermLog

/-! ## The condition on replies -/

/-- A successful reply that reaches a leader answers a request of its current
term. -/
def FreshReply (c : Cluster n C) : Msg n C → Prop
  | .appendEntriesReply src _ k _ reply => reply.success = true →
      ∀ call ∈ (c.nodes src).appends[k]?, (c.nodes src).state = .leader →
        (c.nodes src).currentTerm = call.args.term
  | _ => True

instance (c : Cluster n C) : DecidablePred c.FreshReply
  | .appendEntriesReply src _ k _ reply => inferInstanceAs (Decidable (reply.success = true →
      ∀ call ∈ (c.nodes src).appends[k]?, (c.nodes src).state = .leader →
        (c.nodes src).currentTerm = call.args.term))
  | .requestVote _ _ _ _ _ => .isTrue trivial
  | .requestVoteReply _ _ _ _ _ => .isTrue trivial
  | .appendEntries _ _ _ _ _ => .isTrue trivial

/-- A step that elects, starts and records soundly. -/
def SoundRecord (c : Cluster n C) (a : Action n C) : Prop :=
  c.SoundLog a ∧ c.Delivers c.FreshReply a

instance (c : Cluster n C) (a : Action n C) : Decidable (c.SoundRecord a) :=
  inferInstanceAs (Decidable (_ ∧ _))

/-! ## Recorded matches are acknowledged -/

/-- What a leader has recorded was acknowledged in its term. -/
def Matched (c : Cluster n C) (σ : State (Fin n) (LogEntry C)) : Prop :=
  ∀ s, (c.nodes s).state = .leader → ∀ p, (c.nodes s).matchIndex p = 0 ∨
    (c.nodes s).matchIndex p < σ.acked p (c.nodes s).currentTerm

variable [Inhabited C]

theorem matched_init : Matched (Cluster.init n C) (State.init (default : LogEntry C)) :=
  fun _ _ _ => .inl rfl

/-- A successful reply to an append call acknowledges its request. -/
theorem Tracks.acked_of_reply (h : Tracks c σ) (hcalls : CallInv c) {k : ℕ}
    {reply : AppendEntriesReply} {call : AppendCall n C}
    (hm : .appendEntriesReply s (c.nodes s).epoch k call.server reply ∈ c.net)
    (hcall : (c.nodes s).appends[k]? = some call) (hsuccess : reply.success = true) :
    call.args.prevLogIndex + call.args.entries.length < σ.acked call.server call.args.term := by
  obtain ⟨args, hargs, hacked⟩ := h.refines.reply hm hsuccess
  obtain ⟨-, rfl⟩ := hcalls.unique hargs (hcalls.call hcall)
  exact hacked

/-- A leader that has appended has acknowledged its own log. -/
theorem Tracks.acked_self (h : Tracks c σ) (h' : Tracks (c.put s rf msgs events) σ')
    (hg : Grows σ σ') (hs : (c.nodes s).state = .leader) (hstate : rf.state = .leader)
    (hterm : rf.currentTerm = (c.nodes s).currentTerm)
    (hlen : (c.nodes s).logs.length < rf.logs.length) :
    rf.logs.length ≤ σ'.acked s rf.currentTerm := by
  obtain ⟨hleader, hledger⟩ := (h.refines.node s).leader hs
  have hnode := h'.refines.node s
  rw [put_nodes_self] at hnode
  obtain ⟨hleader', hledger'⟩ := hnode.leader hstate
  rcases h'.wf.own hleader' hledger' with hbase | hacked
  · -- the base of the term is at most as long as the log was before
    rw [hterm, hg.base _ _ hledger] at hbase
    have := (h.wf.base_isPrefix hledger).length_le
    rw [← hbase] at this
    omega
  · exact hacked

/-- The matches that the server which moves has recorded stay acknowledged. -/
theorem Matched.put_self (hc : Matched c σ) (hcalls : CallInv c) (h : Tracks c σ)
    (h' : Tracks (c.put s rf msgs events) σ') (hg : Grows σ σ') (hok : c.SoundRecord a)
    (hmove : Move c a s rf msgs events) (hlead : rf.state = .leader) (p : Fin n) :
    rf.matchIndex p = 0 ∨ rf.matchIndex p < σ'.acked p rf.currentTerm := by
  rcases (hmove.core (h.votes.synced s)).leader_cases hlead with
    ⟨hs, hterm⟩ | ⟨rfl, hs⟩ | ⟨m, k, dst, reply, round, -, -, -, -, -, -, rfl⟩
  · have hkeep : rf.matchIndex p = (c.nodes s).matchIndex p →
        rf.matchIndex p = 0 ∨ rf.matchIndex p < σ'.acked p rf.currentTerm := by
      intro heq
      rw [heq, hterm]
      rcases hc s hs p with hzero | hlt
      · exact .inl hzero
      · exact .inr (hlt.trans_le (hg.acked _ _))
    have hreplica := hmove.replica
    cases hreplica with
    | idle a s rf msgs events hframe hmatch hsilent => exact hkeep (by rw [hmatch])
    | reboot a s rf hepoch hstate hcommit happlied happliers happends hmatch =>
        rw [hstate] at hlead
        cases hlead
    | elect m s rf hframe hmatch => exact .inl (by rw [hmatch])
    | send s k server i prev hstate hprev => exact hkeep rfl
    | accept m src e k dst args prev hm hle hprev hprevTerm =>
        exact hkeep (by rw [((c.nodes s).accepted_replica args).1])
    | record m src k reply call hm hcall hsuccess =>
        have hmatch : (((c.nodes s).callDone k call).matched call.server call.args).matchIndex
            = Function.update (c.nodes s).matchIndex call.server
              (call.args.prevLogIndex + call.args.entries.length) :=
          (((c.nodes s).callDone k call).matched_replica call.server call.args).1
        by_cases hp : p = call.server
        · subst hp
          rw [hmatch, Function.update_self, hterm]
          -- a sound reply is to a request of the current term
          rw [hok.2 _ rfl _ hm hsuccess call hcall hs]
          exact .inr ((h.acked_of_reply hcalls (List.mem_of_getElem? hm) hcall hsuccess).trans_le
            (hg.acked _ _))
        · exact hkeep (by rw [hmatch, Function.update_of_ne hp])
    | append s k q hq =>
        by_cases hp : p = s
        · subst hp
          refine .inr ?_
          have hlen := (c.nodes p).length_startAppend k q
          have hmatch : (((c.nodes p).startDone k).startAppend q).1.matchIndex p
              = (c.nodes p).logs.length := Function.update_self ..
          have hacked := h.acked_self h' hg hs hs rfl (by omega)
          omega
        · refine hkeep ?_
          show Function.update (c.nodes s).matchIndex s _ p = _
          rw [Function.update_of_ne hp]
    | applySend s k g msg hg' hmsg => exact hkeep rfl
    | applyStore s k g hg' hsent => exact hkeep rfl
  · exact absurd hs (hok.1.1.1 s rfl)
  · exact .inl rfl

/-- Every sound step keeps the recorded matches acknowledged. -/
theorem Matched.put (hc : Matched c σ) (hcalls : CallInv c) (h : Tracks c σ)
    (h' : Tracks (c.put s rf msgs events) σ') (hg : Grows σ σ') (hok : c.SoundRecord a)
    (hmove : Move c a s rf msgs events) : Matched (c.put s rf msgs events) σ' := by
  refine (forall_put (P := fun _ node => node.state = .leader → ∀ p, node.matchIndex p = 0 ∨
    node.matchIndex p < σ'.acked p node.currentTerm)).mpr
      ⟨hc.put_self hcalls h h' hg hok hmove, fun t _ hlead p => ?_⟩
  rcases hc t hlead p with hzero | hlt
  · exact .inl hzero
  · exact .inr (hlt.trans_le (hg.acked _ _))

/-- A cluster with its abstract log, in which recorded matches are stored. -/
structure Records (c : Cluster n C) (σ : State (Fin n) (LogEntry C)) : Prop where
  tracks : c.Tracks σ
  calls : c.CallInv
  matched : c.Matched σ
  stored : Stored σ

theorem Records.step {c' : Cluster n C} (h : c.Records σ) (hok : c.SoundRecord a)
    (hstep : c.step a = some c') : ∃ σ', Step LogEntry.term σ σ' ∧ c'.Records σ' := by
  obtain ⟨σ', hσ, htracks⟩ := h.tracks.step hok.1 hstep
  obtain ⟨s, rf, msgs, events, rfl, hmove⟩ := step_move hstep
  exact ⟨σ', hσ, htracks, h.calls.put hmove.replica,
    h.matched.put h.calls h.tracks htracks hσ.grows hok hmove, h.stored.step h.tracks.wf hσ⟩

/-- Up to `matchIndex`, the logs of the leader and of a peer that has not left the
leader's term hold the same entries. -/
theorem Records.agree (h : c.Records σ) (hlead : (c.nodes s).state = .leader) {p : Fin n}
    (hterm : (c.nodes p).currentTerm ≤ (c.nodes s).currentTerm) {i : ℕ} (hpos : 1 ≤ i)
    (hi : i ≤ (c.nodes s).matchIndex p) :
    ∃ e, (c.nodes s).logs[i]? = some e ∧ (c.nodes p).logs[i]? = some e := by
  obtain ⟨-, hledger⟩ := (h.tracks.refines.node s).leader hlead
  have hnode := h.tracks.refines.node p
  rw [← hnode.log]
  refine h.stored.agree h.tracks.wf hledger (hnode.term.trans_le hterm) ?_
  rcases h.matched s hlead p with hzero | hlt
  · omega
  · omega

end Cluster

/-! ## The leader's bookkeeping is truthful -/

section Runs

variable {n : ℕ} {C : Type} [Inhabited C]

open TermLog

/-- A run of sound steps has a run of the abstract log beside it that stores every
recorded match. -/
theorem exists_records (r : (raftSystem n C).Run) (hok : r.Meets Cluster.SoundRecord) :
    ∃ g : ℕ → State (Fin n) (LogEntry C), ∀ k, (r.state k).Records (g k) := by
  obtain ⟨g, hrecords, -⟩ := exists_beside r hok (R := Cluster.Records)
    ⟨Cluster.tracks_init, Cluster.callInv_init, Cluster.matched_init, stored_init⟩ fun h => h.step
  exact ⟨g, hrecords⟩

/-- **Leader bookkeeping is truthful.**  In every run of sound steps, for a leader
`s`, a peer `p` whose term is not newer and an index `i` from `1` to `matchIndex[p]`:
both logs have an entry at index `i`, and it is the same. -/
theorem matchIndex_truthful (r : (raftSystem n C).Run) (hok : r.Meets Cluster.SoundRecord)
    (k : ℕ) (s p : Fin n) (hlead : ((r.state k).nodes s).state = .leader)
    (hterm : ((r.state k).nodes p).currentTerm ≤ ((r.state k).nodes s).currentTerm)
    (i : ℕ) (hpos : 1 ≤ i) (hi : i ≤ ((r.state k).nodes s).matchIndex p) :
    ∃ e, ((r.state k).nodes s).logs[i]? = some e ∧ ((r.state k).nodes p).logs[i]? = some e := by
  obtain ⟨g, hrecords⟩ := exists_records r hok
  exact (hrecords k).agree hlead hterm hpos hi

/-- The entry that server `1` has acknowledged in `handover` is in both logs. -/
theorem matchIndex_truthful_handover :
    handover.Meets Cluster.SoundRecord ∧ ((handover.state 8).nodes 0).state = .leader ∧
      ((handover.state 8).nodes 0).matchIndex 1 = 1 ∧
      ∃ e, ((handover.state 8).nodes 0).logs[1]? = some e ∧
        ((handover.state 8).nodes 1).logs[1]? = some e := by
  have hok : handover.Meets Cluster.SoundRecord :=
    TransitionSystem.meets_ofList (by decide)
  have hlead : ((handover.state 8).nodes 0).state = .leader := by decide
  have hmatch : ((handover.state 8).nodes 0).matchIndex 1 = 1 := by decide
  exact ⟨hok, hlead, hmatch, matchIndex_truthful handover hok 8 0 1 hlead (by decide) 1
    le_rfl hmatch.ge⟩

/-- Server `0` leads term `1`, and server `1` stores its entry; the reply is delayed.
Server `2` wins term `2` with servers `3` and `4` and overwrites the entry on server
`0`, which then wins term `3` and handles the old reply. -/
def staleMatch : (raftSystem 5 ℕ).Run :=
  (raftSystem 5 ℕ).ofList
    [.electionTimeout 0, .deliver 0, .deliver 1, .deliver 4, .deliver 5, .startRead 0 7,
      .startAppend 0 0, .sendHeartbeat 0 0, .deliver 6, .electionTimeout 2, .deliver 10,
      .deliver 11, .deliver 12, .deliver 13, .startRead 2 8, .startAppend 2 0, .sendHeartbeat 2 0,
      .deliver 14, .electionTimeout 0, .deliver 17, .deliver 18, .deliver 20, .deliver 21,
      .deliver 7]

/-- Without the condition on replies, a leader records a match at index `1` for a peer
whose entry there is another one. -/
theorem matchIndex_truthful_fails :
    ¬ ∀ (r : (raftSystem 5 ℕ).Run) (k : ℕ) (s p : Fin 5),
      ((r.state k).nodes s).state = .leader →
      ((r.state k).nodes p).currentTerm ≤ ((r.state k).nodes s).currentTerm →
      ∀ i, 1 ≤ i → i ≤ ((r.state k).nodes s).matchIndex p →
      ∃ e, ((r.state k).nodes s).logs[i]? = some e ∧ ((r.state k).nodes p).logs[i]? = some e := by
  intro h
  obtain ⟨e, h0, h1⟩ := h staleMatch 24 0 1 (by decide) (by decide) 1 le_rfl
    (by decide)
  have hleader : ((staleMatch.state 24).nodes 0).logs[1]? = some ⟨8, 2⟩ := by decide
  have hpeer : ((staleMatch.state 24).nodes 1).logs[1]? = some ⟨7, 1⟩ := by decide
  rw [hleader] at h0
  rw [hpeer, ← h0] at h1
  exact absurd h1 (by decide)

end Runs

end Mit6824
