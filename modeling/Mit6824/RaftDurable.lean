/-
# What is appended by a leader or committed stays

Two properties of whole runs that follow from the abstract log beside the cluster.

* A leader only appends: what its log holds at one moment of its term is the beginning of
  what it holds at any later one (`leader_appendOnly`).  The ledger of the term says so.
* An entry that a server has committed is never removed from its log or changed, not by
  later leaders and not by crashes, and it is the entry at this index of every log that is
  committed so far (`committed_forever`); and the commit index of an incarnation never
  decreases and never leaves the log (`commitIndex_monotone`).  What carries this is that a
  settled index stays settled through every move.
-/
import Mit6824.RaftCommit

namespace Mit6824

namespace Cluster

variable {n : ℕ} {C : Type} [Inhabited C] {c : Cluster n C} {a : Action n C} {s : Fin n}
  {rf : Raft C s} {msgs : List (Msg n C)} {events : List (Event n C)}
  {σ σ' : TermLog.State (Fin n) (LogEntry C)}

open TermLog

omit [Inhabited C] in
/-- A settled index is an index of the log. -/
theorem Settled.lt_length {t i : ℕ} {l : List (LogEntry C)} (h : Settled σ t l i) :
    i < l.length := by
  obtain ⟨T, p, -, -, hi, hpl⟩ := h
  have hle := hpl.length_le
  rw [List.length_take] at hle
  omega

/-- The commit index of a server that does not restart moves forward only. -/
theorem CommitRel.commitIndex_le (hc : CommitRel c σ) (h : Tracks c σ)
    (hmove : Move c a s rf msgs events) (hepoch : rf.epoch = (c.nodes s).epoch) :
    (c.nodes s).commitIndex ≤ rf.commitIndex := by
  have hsettled := Settled.core h (hmove.core (h.votes.synced s)) (hc.commit s)
  cases hmove.replica with
  | idle a s rf msgs events hframe hmatch hsilent => exact hframe.commitIndex.ge
  | reboot a s rf hreboot hstate hcommit happlied happliers happends hmatch => omega
  | elect m s rf hframe hmatch => exact hframe.commitIndex.ge
  | send s k server i prev hstate hprev => exact le_rfl
  | accept m src e k dst args prev hm hle hprev hprevTerm =>
      -- the request may replace the end of the log, but not what is settled
      have hlen := hsettled.lt_length
      rw [(Raft.accepted_core (c.nodes s) args).2.2.2.2.2] at hlen
      rw [Raft.accepted_commitIndex]
      split_ifs with hlt
      · omega
      · exact le_rfl
  | record m src k reply call hm hcall hsuccess =>
      rcases ((c.nodes s).callDone k call).matched_commit call.server call.args with
        ⟨hcommit, -⟩ | ⟨i, hscan, hcommit, -⟩
      · exact hcommit.ge
      · rw [hcommit]
        exact (Raft.commitScan_some hscan).1.le
  | append s k p hp => exact le_rfl
  | applySend s k g msg hg hmsg => exact le_rfl
  | applyStore s k g hg hsent => exact le_rfl

/-- A step keeps what is settled for a server. -/
theorem Tracks.settled_step {c' : Cluster n C} (h : Tracks c σ) (hg : Grows σ σ')
    (hstep : c.step a = some c') {t : Fin n} {i : ℕ}
    (hi : Settled σ (c.nodes t).currentTerm (c.nodes t).logs i) :
    Settled σ' (c'.nodes t).currentTerm (c'.nodes t).logs i := by
  obtain ⟨s, rf, msgs, events, rfl, hmove⟩ := step_move hstep
  by_cases hts : t = s
  · subst hts
    rw [put_nodes_self]
    exact (Settled.core h (hmove.core (h.votes.synced t)) hi).grows hg le_rfl
  · rw [put_nodes_of_ne c hts]
    exact hi.grows hg le_rfl

end Cluster

section Runs

variable {n : ℕ} {C : Type} [Inhabited C]

open TermLog

/-! ## Leaders -/

/-- **A leader only appends.**  In every run whose elections and `Start`s are sound: when a
server is leader of a term at a moment `j`, and a server is leader of the same term at a
later moment `k`, then the log at `j` is a prefix of the log at `k`. -/
theorem leader_appendOnly (r : (raftSystem n C).Run) (hok : r.Meets Cluster.SoundLog)
    (j k : ℕ) (hjk : j ≤ k) (s t : Fin n) (hs : ((r.state j).nodes s).state = .leader)
    (ht : ((r.state k).nodes t).state = .leader)
    (hterm : ((r.state j).nodes s).currentTerm = ((r.state k).nodes t).currentTerm) :
    ((r.state j).nodes s).logs <+: ((r.state k).nodes t).logs := by
  obtain ⟨g, htracks, hgrows⟩ := exists_tracks r hok
  obtain ⟨-, hledger⟩ := ((htracks j).refines.node s).leader hs
  obtain ⟨-, hledger'⟩ := ((htracks k).refines.node t).leader ht
  obtain ⟨l, hl, hprefix⟩ := (hgrows j k hjk).ledger _ _ hledger
  rw [hterm, hledger'] at hl
  rw [Option.some.inj hl]
  exact hprefix

/-- Server `1` of `handover` leads term `2` with one entry, and later with two. -/
theorem leader_appendOnly_handover :
    handover.Meets Cluster.SoundLog ∧
      ((handover.state 13).nodes 1).logs.length = 2 ∧
      ((handover.state 21).nodes 1).logs.length = 3 ∧
      ((handover.state 13).nodes 1).logs <+: ((handover.state 21).nodes 1).logs := by
  have hok := handover_soundLog
  exact ⟨hok, by decide, by decide, leader_appendOnly handover hok 13 21 (by decide) 1 1
    (by decide) (by decide) (by decide)⟩

/-! ## Commits -/

/-- What a server has committed stays settled in its log. -/
theorem settled_of_le {r : (raftSystem n C).Run} {g : ℕ → State (Fin n) (LogEntry C)}
    (hcommits : ∀ k, (r.state k).Commits (g k)) (hgrows : ∀ j k, j ≤ k → Grows (g j) (g k))
    {s : Fin n} {i j k : ℕ} (hi : i ≤ ((r.state j).nodes s).commitIndex) (hjk : j ≤ k) :
    Cluster.Settled (g k) ((r.state k).nodes s).currentTerm ((r.state k).nodes s).logs i := by
  induction k, hjk using Nat.le_induction with
  | base => exact ((hcommits j).rel.commit s).mono List.prefix_rfl hi
  | succ k hjk ih =>
      have hg := hgrows k (k + 1) (Nat.le_succ k)
      rcases ha : r.act k with _ | a
      · rw [r.idle k ha]
        exact ih.grows hg le_rfl
      · exact (hcommits k).tracks.settled_step hg (r.taken k a ha) ih

/-- **What is committed is committed forever.**  In every run of sound steps: an entry that
the log of a server holds at or below its commit index stays in this log at all later
moments, across crashes and under all later leaders, and every server that has committed
this index, at whatever moment, has committed this entry. -/
theorem committed_forever (r : (raftSystem n C).Run) (hok : r.Meets Cluster.SoundCommit)
    (j : ℕ) (s : Fin n) (i : ℕ) (e : LogEntry C)
    (hi : i ≤ ((r.state j).nodes s).commitIndex)
    (he : ((r.state j).nodes s).logs[i]? = some e) :
    (∀ k ≥ j, ((r.state k).nodes s).logs[i]? = some e) ∧
      ∀ k t, i ≤ ((r.state k).nodes t).commitIndex →
        ((r.state k).nodes t).logs[i]? = some e := by
  obtain ⟨g, hcommits, hgrows⟩ := exists_commits r hok
  have hdecided : Cluster.Decided (g j) i e :=
    (settled_of_le hcommits hgrows hi le_rfl).decided le_rfl he
  -- a settled index of any log holds the entry that is decided there
  have hsame : ∀ k t, Cluster.Settled (g k) ((r.state k).nodes t).currentTerm
      ((r.state k).nodes t).logs i → ((r.state k).nodes t).logs[i]? = some e := by
    intro k t hsettled
    have hget := List.getElem?_eq_getElem hsettled.lt_length
    have hdecided' := (hsettled.decided le_rfl hget).grows
      (hgrows k (max j k) (le_max_right j k))
    have htracks := (hcommits (max j k)).tracks
    rw [hget, (hdecided.grows (hgrows j (max j k) (le_max_left j k))).unique htracks.safe
      htracks.wf hdecided']
  refine ⟨fun k hjk => ?_, fun k t hk => ?_⟩
  · exact hsame k s (settled_of_le hcommits hgrows hi hjk)
  · exact hsame k t (settled_of_le hcommits hgrows hk le_rfl)

/-- The entry that server `0` commits in term `1` of `handover` is still there when server
`1` has committed it in term `2`. -/
theorem committed_forever_handover :
    handover.Meets Cluster.SoundCommit ∧ 1 ≤ ((handover.state 8).nodes 0).commitIndex ∧
      ((handover.state 21).nodes 0).logs[1]? = some ⟨7, 1⟩ ∧
      ((handover.state 21).nodes 1).logs[1]? = some ⟨7, 1⟩ := by
  have hok := handover_soundCommit
  have hcommit : 1 ≤ ((handover.state 8).nodes 0).commitIndex := by decide
  obtain ⟨hself, hothers⟩ := committed_forever handover hok 8 0 1 ⟨7, 1⟩ hcommit (by decide)
  exact ⟨hok, hcommit, hself 21 (by decide), hothers 21 1 (by decide)⟩

/-- **The commit index moves forward, inside the log.**  In every run of sound steps, the
commit index of a server is an index of its log, and it never decreases within an
incarnation. -/
theorem commitIndex_monotone (r : (raftSystem n C).Run) (hok : r.Meets Cluster.SoundCommit)
    (s : Fin n) (j k : ℕ) (hjk : j ≤ k)
    (hepoch : ((r.state k).nodes s).epoch = ((r.state j).nodes s).epoch) :
    ((r.state j).nodes s).commitIndex ≤ ((r.state k).nodes s).commitIndex ∧
      ((r.state k).nodes s).commitIndex < ((r.state k).nodes s).logs.length := by
  obtain ⟨g, hcommits, hgrows⟩ := exists_commits r hok
  refine ⟨?_, ((hcommits k).rel.commit s).lt_length⟩
  -- epochs only grow, so the server does not restart between the two moments
  have hstep : ∀ m, ((r.state m).nodes s).epoch ≤ ((r.state (m + 1)).nodes s).epoch ∧
      (((r.state (m + 1)).nodes s).epoch = ((r.state m).nodes s).epoch →
        ((r.state m).nodes s).commitIndex ≤ ((r.state (m + 1)).nodes s).commitIndex) := by
    intro m
    rcases ha : r.act m with _ | a
    · rw [r.idle m ha]
      exact ⟨le_rfl, fun _ => le_rfl⟩
    · obtain ⟨t, rf, msgs, events, heq, hmove⟩ := Cluster.step_move (r.taken m a ha)
      rw [heq]
      by_cases hst : s = t
      · subst hst
        rw [Cluster.put_nodes_self]
        refine ⟨?_, (hcommits m).rel.commitIndex_le (hcommits m).tracks hmove⟩
        rcases (hmove.core ((hcommits m).tracks.votes.synced s)).epoch_cases with ⟨h, -⟩ | h
        · exact h.ge
        · omega
      · rw [Cluster.put_nodes_of_ne _ hst]
        exact ⟨le_rfl, fun _ => le_rfl⟩
  have hmono : Monotone fun m => ((r.state m).nodes s).epoch :=
    monotone_nat_of_le_succ fun m => (hstep m).1
  induction k, hjk using Nat.le_induction with
  | base => exact le_rfl
  | succ k hjk ih =>
      have hlow : ((r.state j).nodes s).epoch ≤ ((r.state k).nodes s).epoch := hmono hjk
      have hhigh := (hstep k).1
      exact (ih (by omega)).trans ((hstep k).2 (by omega))

/-- Server `0` of `handover` keeps its commit index from term `1` on. -/
theorem commitIndex_monotone_handover :
    handover.Meets Cluster.SoundCommit ∧
      ((handover.state 8).nodes 0).commitIndex ≤ ((handover.state 21).nodes 0).commitIndex ∧
      ((handover.state 21).nodes 0).commitIndex <
        ((handover.state 21).nodes 0).logs.length := by
  have hok := handover_soundCommit
  exact ⟨hok, commitIndex_monotone handover hok 0 8 21 (by decide) (by decide)⟩

end Runs

end Mit6824
