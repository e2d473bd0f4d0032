/-
# Leaders: at most one in a term

A server becomes leader in one place of the code, when a granted reply
completes a majority of an election round, and the votes of that round are for
the term of the round.  Two behaviours of the code break the conclusion that a
leader was elected in the term it leads in:

* `Make`'s loop handles an expiry of the election timer in any role, and for a
  leader `startElection` raises the term while the server stays leader;
* a granted reply counts for its round whatever the candidate's term has become,
  so an old round can make a leader of a newer term.

`SoundElection` is the condition that a step does neither.  Under it a leader
has a majority of its own term (`LeaderInv`), and `electionSafety` follows from
the intersection of majorities; without it, `twoLeaders` is a run with two
leaders of term `2`.
-/
import Mit6824.RaftVote

namespace Mit6824

namespace Raft

variable {n : ℕ} {C : Type} {me : Fin n}

/-- The branch of the reply handler that goes wrong: a granted reply makes the
server leader by the votes of a round whose term is not the current one. -/
def winsStale (rf : Raft C me) (k : ℕ) (reply : RequestVoteReply) : Prop :=
  reply.voteGranted = true ∧ rf.state = .candidate ∧
    ∃ round ∈ rf.elections[k]?, n / 2 < round.voteCount + 1 ∧ round.args.term ≠ rf.currentTerm

instance (rf : Raft C me) (k : ℕ) (reply : RequestVoteReply) :
    Decidable (rf.winsStale k reply) :=
  inferInstanceAs (Decidable (_ ∧ _ ∧ _))

end Raft

namespace Cluster

variable {n : ℕ} {C : Type} {c : Cluster n C} {a : Action n C} {s : Fin n}
  {rf : Raft C s} {msgs : List (Msg n C)} {events : List (Event n C)}

/-- Delivering this message does not elect by an old round. -/
def SoundReply (c : Cluster n C) : Msg n C → Prop
  | .requestVoteReply src _ k _ reply => ¬ (c.nodes src).winsStale k reply
  | _ => True

instance (c : Cluster n C) : DecidablePred c.SoundReply
  | .requestVoteReply _ _ _ _ _ => inferInstanceAs (Decidable (¬ _))
  | .requestVote _ _ _ _ _ => .isTrue trivial
  | .appendEntries _ _ _ _ _ => .isTrue trivial
  | .appendEntriesReply _ _ _ _ _ => .isTrue trivial

/-- A step that elects soundly: an expiry of the election timer is not handled
by a leader, and no reply elects by an old round. -/
def SoundElection (c : Cluster n C) (a : Action n C) : Prop :=
  TimesOut (fun s => (c.nodes s).state ≠ .leader) a ∧ c.Delivers c.SoundReply a

instance (c : Cluster n C) (a : Action n C) : Decidable (c.SoundElection a) :=
  inferInstanceAs (Decidable (_ ∧ _))

/-- Server `s` has won term `T`: a majority has voted for it. -/
def Won (c : Cluster n C) (s : Fin n) (T : ℕ) : Prop :=
  ∃ V : Finset (Fin n), IsMajority V ∧ ∀ v ∈ V, c.Voted v T s

theorem Won.put {t : Fin n} {T : ℕ} (h : c.Won t T) (s : Fin n) (rf : Raft C s)
    (msgs : List (Msg n C)) (events : List (Event n C)) : (c.put s rf msgs events).Won t T := by
  obtain ⟨V, hV, hvotes⟩ := h
  exact ⟨V, hV, fun v hv => (hvotes v hv).put s rf msgs events⟩

/-- Leaders have won the term they lead in. -/
def LeaderInv (c : Cluster n C) : Prop :=
  ∀ s, (c.nodes s).state = .leader → c.Won s (c.nodes s).currentTerm

/-- **How a server comes to be leader after a move**: it was leader of the same
term, it was leader and its election timer expired, or a reply completed a
majority. -/
theorem CoreMove.leader_cases (h : CoreMove c a s rf msgs events) (hlead : rf.state = .leader) :
    ((c.nodes s).state = .leader ∧ rf.currentTerm = (c.nodes s).currentTerm) ∨
    (a = .electionTimeout s ∧ (c.nodes s).state = .leader) ∨
    ∃ (m k : ℕ) (dst : Fin n) (reply : RequestVoteReply) (round : Election n),
      a = .deliver m ∧
      c.net[m]? = some (.requestVoteReply s (c.nodes s).epoch k dst reply) ∧
      (c.nodes s).elections[k]? = some round ∧ reply.voteGranted = true ∧
      (c.nodes s).state = .candidate ∧ n / 2 < round.voteCount + 1 ∧
      rf = ((c.nodes s).answered k round dst 1).elected := by
  have hobserve : ∀ t, ((c.nodes s).observeTerm t).state = .leader →
      (c.nodes s).state = .leader ∧ max (c.nodes s).currentTerm t = (c.nodes s).currentTerm := by
    intro t ht
    have hle : t ≤ (c.nodes s).currentTerm := Raft.observeTerm_of_state_ne (by rw [ht]; simp)
    rw [Raft.observeTerm_of_le hle] at ht
    exact ⟨ht, max_eq_left hle⟩
  cases h with
  | drift a s rf msgs events h hstate hquiet =>
      rcases hstate with hf | ⟨hs, hterm⟩
      · rw [hf] at hlead
        simp at hlead
      · exact .inl ⟨by rw [← hs]; exact hlead, hterm⟩
  | reboot a s rf hepoch hstate hterm hvote hlogs helections =>
      rw [hstate] at hlead
      simp at hlead
  | campaign s last hlast =>
      have hif : (if (c.nodes s).state = .follower then NodeState.candidate
        else (c.nodes s).state) = .leader := hlead
      split_ifs at hif
      exact .inr (.inl ⟨rfl, hif⟩)
  | grant m src e k dst args last hm hrefuse hlast hup =>
      obtain ⟨hs, hmax⟩ := hobserve args.term hlead
      exact .inl ⟨hs, (Raft.observeTerm_currentTerm _ _).trans hmax⟩
  | elect m src k dst reply round hm hround hwait hgranted hstate hcount hdrift =>
      exact .inr (.inr ⟨m, k, dst, reply, round, rfl, hm, hround, hgranted, hstate, hcount, rfl⟩)
  | accept m src e k dst args prev hm hterm hprev hprevTerm =>
      rw [(Raft.accepted_core _ args).2.2.1] at hlead
      obtain ⟨hs, hmax⟩ := hobserve args.term hlead
      exact .inl ⟨hs, (Raft.accepted_currentTerm _ _).trans hmax⟩
  | append s k p hp rf hrf =>
      subst hrf
      exact .inl ⟨hlead, rfl⟩

variable [Inhabited C]

/-- A term has one winner. -/
theorem VoteInv.won_unique (hi : VoteInv c) {t : Fin n} {T : ℕ} (hs : c.Won s T)
    (ht : c.Won t T) : s = t := by
  obtain ⟨P, hP, hvs⟩ := hs
  obtain ⟨Q, hQ, hvt⟩ := ht
  obtain ⟨v, hvP, hvQ⟩ := hP.inter hQ
  exact hi.unique (hvs v hvP) (hvt v hvQ)

theorem leaderInv_init : LeaderInv (Cluster.init n C) := by
  intro s hs
  simp [init, Raft.make, Raft.readPersist] at hs

/-- The winner of a sound election has won its current term. -/
theorem VoteInv.won_of_elect (hi : VoteInv c) (hok : c.SoundElection a)
    (h : Move c a s rf msgs events) {m k : ℕ} {dst : Fin n} {reply : RequestVoteReply}
    {round : Election n} (ha : a = .deliver m)
    (hm : c.net[m]? = some (.requestVoteReply s (c.nodes s).epoch k dst reply))
    (hround : (c.nodes s).elections[k]? = some round) (hgranted : reply.voteGranted = true)
    (hstate : (c.nodes s).state = .candidate) (hcount : n / 2 < round.voteCount + 1)
    (hrf : rf = ((c.nodes s).answered k round dst 1).elected) :
    round.args.term = (c.nodes s).currentTerm ∧
      (c.put s rf msgs events).Won s rf.currentTerm := by
  have hterm : round.args.term = (c.nodes s).currentTerm := by
    by_contra hne
    subst ha
    exact hok.2 m rfl _ hm ⟨hgranted, hstate, round, hround, hcount, hne⟩
  have hanswered : rf.elections[k]? = some (round.answered dst 1) := by
    obtain ⟨hk, -⟩ := List.getElem?_eq_some_iff.mp hround
    subst hrf
    exact List.getElem?_set_self hk
  obtain ⟨V, hcard, hV⟩ := (hi.put_round_self h hanswered).2
  have hcurrent : rf.currentTerm = (round.answered dst 1).args.term := by
    subst hrf
    exact hterm.symm
  have hhalf : n / 2 < V.card := by
    rw [hcard]
    exact hcount
  refine ⟨hterm, V, isMajority_of_half_lt hhalf, fun v hv => ?_⟩
  rw [hcurrent]
  exact (hV v hv).2

/-- A sound step keeps the leader invariant. -/
theorem LeaderInv.step {c' : Cluster n C} (hl : LeaderInv c) (hi : VoteInv c)
    (hok : c.SoundElection a) (hstep : c.step a = some c') : LeaderInv c' := by
  obtain ⟨s, rf, msgs, events, rfl, h⟩ := step_move hstep
  refine (forall_put (P := fun t node => node.state = .leader →
    (c.put s rf msgs events).Won t node.currentTerm)).mpr
      ⟨fun hlead => ?_, fun t _ ht => (hl t ht).put s rf msgs events⟩
  rcases (h.core (hi.synced s)).leader_cases hlead with
    ⟨hs, hterm⟩ | ⟨rfl, hs⟩ | ⟨m, k, dst, reply, round, ha, hm, hround, hg, hs, hcount, hrf⟩
  · rw [hterm]
    exact (hl s hs).put s rf msgs events
  · exact absurd hs (hok.1 s rfl)
  · exact (hi.won_of_elect hok h ha hm hround hg hs hcount hrf).2

end Cluster

/-! ## Election safety -/

section Runs

variable {n : ℕ} {C : Type} [Inhabited C]

/-- In a run of sound elections every leader has won its term. -/
theorem leaderInv_run (r : (raftSystem n C).Run) (hok : r.Meets Cluster.SoundElection) (k : ℕ) :
    (r.state k).LeaderInv := by
  have hboth : (r.state k).VoteInv ∧ (r.state k).LeaderInv := by
    refine r.invariant (I := fun c => c.VoteInv ∧ c.LeaderInv) hok
      ⟨Cluster.voteInv_init, Cluster.leaderInv_init⟩ ?_ k
    rintro c a c' ⟨hi, hl⟩ hsound hstep
    exact ⟨hi.step hstep, hl.step hi hsound hstep⟩
  exact hboth.2

/-- **Election safety.**  In every run whose elections are sound, two servers
that are ever leader of the same term, at whatever moments, are the same. -/
theorem electionSafety (r : (raftSystem n C).Run) (hok : r.Meets Cluster.SoundElection)
    (j k : ℕ) (s t : Fin n) (hs : ((r.state j).nodes s).state = .leader)
    (ht : ((r.state k).nodes t).state = .leader)
    (hterm : ((r.state j).nodes s).currentTerm = ((r.state k).nodes t).currentTerm) : s = t := by
  obtain ⟨P, hP, hvs⟩ := leaderInv_run r hok j s hs
  obtain ⟨Q, hQ, hvt⟩ := leaderInv_run r hok k t ht
  rw [← hterm] at hvt
  exact majority_unique r hP hQ hvs hvt

/-- The same server leads term `1` at two moments of a run with a crash and a
second candidate. -/
theorem electionSafety_crashElection :
    crashElection.Meets Cluster.SoundElection ∧
      ((crashElection.state 4).nodes 0).state = .leader ∧
      ((crashElection.state 4).nodes 0).currentTerm = 1 ∧
      ∀ t, ((crashElection.state 5).nodes t).state = .leader →
        1 = ((crashElection.state 5).nodes t).currentTerm → 0 = t := by
  have hok : crashElection.Meets Cluster.SoundElection :=
    TransitionSystem.meets_ofList (by decide)
  have hlead : ((crashElection.state 4).nodes 0).state = .leader := by decide
  have hterm : ((crashElection.state 4).nodes 0).currentTerm = 1 := by decide
  refine ⟨hok, hlead, hterm, fun t ht hterm' => ?_⟩
  exact electionSafety crashElection hok 4 5 0 t hlead ht (hterm.trans hterm')

/-- Server `0` wins term `1`; its election timer expires while it is leader, so
it is leader of term `2` without an election; then server `1` wins term `2` with
the vote of server `2`. -/
def twoLeaders : (raftSystem 3 ℕ).Run :=
  (raftSystem 3 ℕ).ofList
    [.electionTimeout 0, .deliver 0, .deliver 2, .electionTimeout 0, .electionTimeout 1,
      .deliver 6, .deliver 7]

/-- Without the condition, a term can have two leaders at the same moment. -/
theorem electionSafety_fails :
    ¬ ∀ (r : (raftSystem 3 ℕ).Run) (j k : ℕ) (s t : Fin 3),
      ((r.state j).nodes s).state = .leader → ((r.state k).nodes t).state = .leader →
      ((r.state j).nodes s).currentTerm = ((r.state k).nodes t).currentTerm → s = t := by
  intro h
  have hzero : ((twoLeaders.state 7).nodes 0).state = .leader ∧
      ((twoLeaders.state 7).nodes 0).currentTerm = 2 := by decide
  have hone : ((twoLeaders.state 7).nodes 1).state = .leader ∧
      ((twoLeaders.state 7).nodes 1).currentTerm = 2 := by decide
  have heq := h twoLeaders 7 7 0 1 hzero.1 hone.1 (hzero.2.trans hone.2.symm)
  exact absurd heq (by decide)

end Runs

end Mit6824
