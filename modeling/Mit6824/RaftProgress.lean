/-
# A leader that stays leader brings its peers up to date

Liveness of the replication.  Suppose that from some moment on a server leads one term
without a break (`Reign`) and that its append calls to a peer keep returning.  Then the peer
ends up with every entry of the leader's log, and the leader with a `matchIndex` that says so.

The obstacle are late replies: a rejection sets `nextIndex` back to before the previous entry
of the request it answers, which may be *ahead* of where the leader has got to since, and a
success of an old request sets `matchIndex` and `nextIndex` down again.  Each call returns
once, so old calls run out (`Reign.eventually_fresh`), and `Probing.eventually_le` brings
`nextIndex` below what the peer has acknowledged; from there on every request is accepted.
-/
import Mit6824.Probing
import Mit6824.RaftCalls
import Mit6824.RaftHandlers

namespace Mit6824

namespace Cluster

variable {n : ℕ} {C : Type} [Inhabited C] {c c' : Cluster n C} {a : Action n C}
  {σ : TermLog.State (Fin n) (LogEntry C)}

open TermLog

/-- What holds of a cluster beside its abstract log: the invariants of the calls. -/
structure Follows (c : Cluster n C) (σ : State (Fin n) (LogEntry C)) : Prop where
  tracks : c.Tracks σ
  stored : Stored σ
  calls : c.CallInv
  replies : c.ReplyInv
  ground : c.GroundInv
  beats : c.BeatInv

theorem follows_init : Follows (Cluster.init n C) (State.init (default : LogEntry C)) :=
  ⟨tracks_init, stored_init, callInv_init, replyInv_init, groundInv_init, beatInv_init⟩

theorem Follows.step (h : c.Follows σ) (hok : c.SoundLog a) (hstep : c.step a = some c') :
    ∃ σ', Step LogEntry.term σ σ' ∧ c'.Follows σ' := by
  obtain ⟨σ', hσ, htracks⟩ := h.tracks.step hok hstep
  have hbeats := h.beats.step h.tracks.votes h.ground.logs_ne_nil hok.1 hstep
  have hreplies := h.replies.step hstep
  obtain ⟨s, rf, msgs, events, rfl, hmove⟩ := step_move hstep
  exact ⟨σ', hσ, htracks, h.stored.step h.tracks.wf hσ, h.calls.put hmove.replica, hreplies,
    h.ground.put hmove (hmove.core (h.tracks.votes.synced s)), hbeats⟩

end Cluster

section Runs

variable {n : ℕ} {C : Type} [Inhabited C]

open TermLog Filter

theorem exists_follows (r : (raftSystem n C).Run) (hok : r.Meets Cluster.SoundLog) :
    ∃ g : ℕ → State (Fin n) (LogEntry C), (∀ k, (r.state k).Follows (g k)) ∧
      ∀ j k, j ≤ k → Grows (g j) (g k) :=
  exists_beside r hok Cluster.follows_init fun h => h.step

/-- From the moment `K` on server `s` leads one term without a break. -/
structure Reign (r : (raftSystem n C).Run) (s : Fin n) (K : ℕ) : Prop where
  leader : ∀ k ≥ K, ((r.state k).nodes s).state = .leader
  epoch : ∀ k ≥ K, ((r.state k).nodes s).epoch = ((r.state K).nodes s).epoch
  term : ∀ k ≥ K, ((r.state k).nodes s).currentTerm = ((r.state K).nodes s).currentTerm

/-- At the moment `j` append call number `q` of `s` to `f` returns. -/
def Returns (r : (raftSystem n C).Run) (s f : Fin n) (j q : ℕ) : Prop :=
  ∃ m e reply, r.act j = some (.deliver m) ∧
    (r.state j).net[m]? = some (.appendEntriesReply s e q f reply)

/-- Some append call that `s` makes to `f` from the moment `k` on returns. -/
def CallReturns (r : (raftSystem n C).Run) (s f : Fin n) (k : ℕ) : Prop :=
  ∃ j ≥ k, ∃ q ≥ ((r.state k).nodes s).appends.length, Returns r s f j q

/-- Append call number `q` of `s` is made at the moment `t`: to `f`, from where `nextIndex`
then is. -/
structure SentAt (r : (raftSystem n C).Run) (s f : Fin n) (q t : ℕ)
    (args : AppendEntriesArgs n C) : Prop where
  before : ((r.state t).nodes s).appends.length = q
  after : q < ((r.state (t + 1)).nodes s).appends.length
  next : ((r.state t).nodes s).nextIndex f = args.prevLogIndex + 1
  prev : ∃ prev, ((r.state t).nodes s).logs[args.prevLogIndex]? = some prev ∧
    args = ((r.state t).nodes s).appendArgs args.prevLogIndex prev

variable {r : (raftSystem n C).Run} {s f : Fin n} {K j k q : ℕ}

/-! ## The calls of a reign -/

/-- A moment of a reign: idle, or one of the leader's moves. -/
theorem Reign.move (h : Reign r s K) (hj : K ≤ j) :
    r.act j = none ∧ r.state (j + 1) = r.state j ∨
      ∃ a, r.act j = some a ∧
        (r.state j).LeadMove s a ((r.state (j + 1)).nodes s) := by
  rcases ha : r.act j with _ | a
  · exact .inl ⟨rfl, r.idle j ha⟩
  · refine .inr ⟨a, rfl, Cluster.step_leadMove ⟨h.leader j hj, h.leader (j + 1) (by omega), ?_, ?_⟩
      (r.taken j a ha)⟩
    · rw [h.epoch (j + 1) (by omega), h.epoch j hj]
    · rw [h.term (j + 1) (by omega), h.term j hj]

/-- Calls stay what they are during a reign, except that they return. -/
theorem Reign.callsGrow (h : Reign r s K) (hj : K ≤ j) (hjk : j ≤ k) :
    Cluster.CallsGrow ((r.state j).nodes s).appends ((r.state k).nodes s).appends := by
  induction k, hjk using Nat.le_induction with
  | base => exact .refl _
  | succ k hjk ih =>
      refine ih.trans ?_
      rcases h.move (j := k) (by omega) with ⟨-, hidle⟩ | ⟨a, -, hmove⟩
      · rw [hidle]
        exact .refl _
      · exact hmove.callsGrow

/-- A call that returns in a reign. -/
theorem Reign.returned (h : Reign r s K) (hj : K ≤ j) (hret : Returns r s f j q) :
    ∃ m reply call, r.act j = some (.deliver m) ∧
      (r.state j).net[m]?
        = some (.appendEntriesReply s ((r.state K).nodes s).epoch q f reply) ∧
      (r.state j).Returned s ((r.state (j + 1)).nodes s) ((r.state K).nodes s).epoch q f reply
        call := by
  obtain ⟨m, e, reply, ha, hm⟩ := hret
  rcases h.move hj with ⟨hidle, -⟩ | ⟨a, ha', hmove⟩
  · rw [hidle] at ha
    cases ha
  · rw [ha] at ha'
    obtain rfl := Option.some.inj ha'
    obtain ⟨call, hcall⟩ := hmove.returned hm
    obtain rfl : e = ((r.state K).nodes s).epoch := hcall.epoch.trans (h.epoch j hj)
    exact ⟨m, reply, call, ha, hm, hcall⟩

/-- A call returns once. -/
theorem Reign.returns_once (h : Reign r s K) {j' : ℕ} (hj : K ≤ j) (hj' : K ≤ j')
    (hret : Returns r s f j q) (hret' : Returns r s f j' q) : j = j' := by
  -- after the first return nobody waits any more
  have key : ∀ {i i' : ℕ}, K ≤ i → Returns r s f i q → Returns r s f i' q → ¬ i < i' := by
    intro i i' hi hret hret' hlt
    obtain ⟨_, _, call, _, _, hcall⟩ := h.returned hi hret
    obtain ⟨_, _, call', _, _, hcall'⟩ := h.returned (by omega) hret'
    obtain ⟨later, hlater, -, -, hwait⟩ :=
      h.callsGrow (j := i + 1) (k := i') (by omega) (by omega) q _ hcall.done
    obtain rfl := Option.some.inj (hlater.symm.trans hcall'.made)
    cases hwait hcall'.waiting
  have h1 := key hj hret hret'
  have h2 := key hj' hret' hret
  omega

/-- **Old calls run out.**  From some moment on only calls made after the moment `k` return. -/
theorem Reign.eventually_fresh (h : Reign r s K) (f : Fin n) (k : ℕ) :
    ∀ᶠ j in atTop, ∀ q, Returns r s f j q → ((r.state k).nodes s).appends.length ≤ q := by
  have hfresh := Probing.eventually_fresh (fun j q => K ≤ j ∧ Returns r s f j q)
    (fun q j j' hj hj' => h.returns_once hj.1 hj'.1 hj.2 hj'.2)
    ((r.state k).nodes s).appends.length
  filter_upwards [hfresh, eventually_ge_atTop K] with j hj hK q hret
  exact hj q ⟨hK, hret⟩

/-- A call of a reign was made at some moment of it. -/
theorem Reign.exists_sentAt (h : Reign r s K) (hk : K ≤ k) {call : AppendCall n C}
    (hq : ((r.state k).nodes s).appends[q]? = some call)
    (hold : ((r.state K).nodes s).appends.length ≤ q) :
    ∃ t, K ≤ t ∧ t < k ∧ SentAt r s call.server q t call.args := by
  induction k, hk using Nat.le_induction generalizing call with
  | base =>
      obtain ⟨hlt, -⟩ := List.getElem?_eq_some_iff.mp hq
      omega
  | succ k hk ih =>
      rcases h.move hk with ⟨-, hidle⟩ | ⟨a, -, hmove⟩
      · rw [hidle] at hq
        obtain ⟨t, hKt, htk, hsent⟩ := ih hq
        exact ⟨t, hKt, by omega, hsent⟩
      · rcases hprev : ((r.state k).nodes s).appends[q]? with _ | call'
        · -- the call is made by this step
          have hlen := List.getElem?_eq_none_iff.mp hprev
          obtain ⟨rfl, i, prev, hnext, hget, hargs⟩ := hmove.sent hlen hq
          obtain ⟨hlt, -⟩ := List.getElem?_eq_some_iff.mp hq
          refine ⟨k, hk, Nat.lt_succ_self k, rfl, hlt, ?_, prev, ?_, ?_⟩
          · rw [hargs]
            exact hnext
          · rw [hargs]
            exact hget
          · rw [hargs]
            rfl
        · obtain ⟨call'', hq', hserver, hargs, -⟩ := hmove.callsGrow q call' hprev
          obtain rfl := Option.some.inj (hq'.symm.trans hq)
          obtain ⟨t, hKt, htk, hsent⟩ := ih hprev
          rw [hserver, hargs]
          exact ⟨t, hKt, by omega, hsent⟩

/-- The request of a call is of the leader's term and ends with its log. -/
theorem Reign.sent_args (h : Reign r s K) {t : ℕ} {args : AppendEntriesArgs n C} (ht : K ≤ t)
    (hsent : SentAt r s f q t args) : args.term = ((r.state K).nodes s).currentTerm ∧
      args.prevLogIndex + args.entries.length + 1 = ((r.state t).nodes s).logs.length ∧
      args.leaderCommit = ((r.state t).nodes s).commitIndex := by
  obtain ⟨prev, hprev, hargs⟩ := hsent.prev
  obtain ⟨hlt, -⟩ := List.getElem?_eq_some_iff.mp hprev
  refine ⟨?_, ?_, ?_⟩
  · rw [hargs]
    exact h.term t ht
  · have hentries : args.entries = ((r.state t).nodes s).logs.drop (args.prevLogIndex + 1) := by
      rw [hargs]
      rfl
    rw [hentries, List.length_drop]
    omega
  · rw [hargs]
    rfl

/-! ## Replies come after their calls -/

/-- A reply to a call that is made after the moment `k` is computed after this moment. -/
theorem computed_after {g : ℕ → State (Fin n) (LogEntry C)}
    (hg : ∀ k, (r.state k).Follows (g k)) {reply : AppendEntriesReply} (hkj : k ≤ j)
    (hq : ((r.state k).nodes s).appends.length ≤ q)
    (hmem : .appendEntriesReply s ((r.state k).nodes s).epoch q f reply ∈ (r.state j).net) :
    ∃ i ≥ k, i < j ∧ ∃ args,
      .appendEntries s ((r.state k).nodes s).epoch q f args ∈ (r.state i).net ∧
      ((r.state i).nodes f).appendEntries args = .ok ((r.state (i + 1)).nodes f, reply) := by
  induction j, hkj using Nat.le_induction with
  | base =>
      obtain ⟨args, hargs, -⟩ := (hg k).replies.request hmem
      have hbound := ((hg k).calls.bound hargs).2 rfl
      omega
  | succ j hkj ih =>
      have hold : .appendEntriesReply s ((r.state k).nodes s).epoch q f reply ∈ (r.state j).net →
          ∃ i ≥ k, i < j + 1 ∧ ∃ args,
            .appendEntries s ((r.state k).nodes s).epoch q f args ∈ (r.state i).net ∧
            ((r.state i).nodes f).appendEntries args
              = .ok ((r.state (i + 1)).nodes f, reply) := by
        intro hmem
        obtain ⟨i, hi, hij, hanswer⟩ := ih hmem
        exact ⟨i, hi, by omega, hanswer⟩
      rcases ha : r.act j with _ | a
      · rw [r.idle j ha] at hmem
        exact hold hmem
      · rcases Cluster.answer_of_step (r.taken j a ha) hmem with hmem | ⟨args, hargs, hanswer⟩
        · exact hold hmem
        · exact ⟨j, hkj, Nat.lt_succ_self j, args, hargs, hanswer⟩

/-- What has been sent stays on the network. -/
theorem net_mono (r : (raftSystem n C).Run) {j k : ℕ} (hjk : j ≤ k) :
    (r.state j).net <+: (r.state k).net := by
  refine r.rel_of_le r.meets_true (R := fun c c' => c.net <+: c'.net)
    (fun _ => List.prefix_rfl) (fun _ _ _ => List.IsPrefix.trans) ?_ hjk
  intro i a _ _ hstep
  obtain ⟨t, rf, msgs, events, heq, -⟩ := Cluster.step_move hstep
  rw [heq]
  exact List.prefix_append _ _

/-- At the moment `j` call number `q` of the reign, made to `f` at the moment `t`, returns. -/
structure Answer (r : (raftSystem n C).Run) (s f : Fin n) (K j q t : ℕ)
    (reply : AppendEntriesReply) (call : AppendCall n C) : Prop where
  start : K ≤ t
  past : t < j
  sent : SentAt r s f q t call.args
  returns : Returns r s f j q
  mem : .appendEntriesReply s ((r.state K).nodes s).epoch q f reply ∈ (r.state j).net
  returned : (r.state j).Returned s ((r.state (j + 1)).nodes s) ((r.state K).nodes s).epoch q f
    reply call

theorem Reign.exists_answer (h : Reign r s K) (hk : K ≤ k) (hj : K ≤ j)
    (hret : Returns r s f j q) (hq : ((r.state k).nodes s).appends.length ≤ q) :
    ∃ t ≥ k, ∃ reply call, Answer r s f K j q t reply call := by
  obtain ⟨m, reply, call, -, hm, hcall⟩ := h.returned hj hret
  have hgrow := (h.callsGrow le_rfl hk).length_le
  obtain ⟨t, hKt, htj, hsent⟩ := h.exists_sentAt hj hcall.made (by omega)
  rw [hcall.server] at hsent
  refine ⟨t, ?_, reply, call, hKt, htj, hsent, hret, List.mem_of_getElem? hm, hcall⟩
  -- a call made before `k` would have a smaller number
  by_contra hlt
  have hgrow' := (h.callsGrow (j := t + 1) (k := k) (by omega) (by omega)).length_le
  have hafter := hsent.after
  omega

section Replication

variable {g : ℕ → State (Fin n) (LogEntry C)} {t : ℕ} {reply : AppendEntriesReply}
  {call : AppendCall n C}

/-- The reply was computed by the peer between the call and its return. -/
theorem Reign.computed (h : Reign r s K) (hg : ∀ k, (r.state k).Follows (g k))
    (ha : Answer r s f K j q t reply call) : ∃ i, t ≤ i ∧ i < j ∧
      .appendEntries s ((r.state t).nodes s).epoch q f call.args ∈ (r.state i).net ∧
      ((r.state i).nodes f).appendEntries call.args = .ok ((r.state (i + 1)).nodes f, reply) := by
  have hmem := ha.mem
  rw [← h.epoch t ha.start] at hmem
  obtain ⟨i, hti, hij, args, hargs, hanswer⟩ :=
    computed_after hg ha.past.le ha.sent.before.le hmem
  -- the call has one request
  have hcall := (hg j).calls.call ha.returned.made
  have hargs' := (net_mono r hij.le).subset hargs
  rw [h.epoch t ha.start, ← h.epoch j (ha.start.trans ha.past.le)] at hargs'
  obtain ⟨-, rfl⟩ := (hg j).calls.unique hargs' hcall
  exact ⟨i, hti, hij, hargs, hanswer⟩

/-- A call that succeeds has been acknowledged. -/
theorem Reign.acked_of_success (h : Reign r s K) (hg : ∀ k, (r.state k).Follows (g k))
    (ha : Answer r s f K j q t reply call) (hsuccess : reply.success = true) :
    call.args.prevLogIndex + call.args.entries.length
      < (g j).acked f ((r.state K).nodes s).currentTerm := by
  have hmem := ha.mem
  rw [← h.epoch j (ha.start.trans ha.past.le), ← ha.returned.server] at hmem
  have hacked := (hg j).tracks.acked_of_reply (hg j).calls hmem ha.returned.made hsuccess
  rw [ha.returned.server, (h.sent_args ha.start ha.sent).1] at hacked
  exact hacked

/-- A success records the match. -/
theorem Answer.match_of_success (ha : Answer r s f K j q t reply call)
    (hsuccess : reply.success = true) :
    ((r.state (j + 1)).nodes s).nextIndex f
        = call.args.prevLogIndex + call.args.entries.length + 1 ∧
      ((r.state (j + 1)).nodes s).matchIndex f
        = call.args.prevLogIndex + call.args.entries.length := by
  rcases ha.returned.result with ⟨-, heq⟩ | ⟨hfail, -⟩
  · obtain ⟨hnext, hmatch⟩ :=
      (((r.state j).nodes s).callDone q call).matched_indices f call.args
    rw [heq, hnext, hmatch, Function.update_self, Function.update_self]
    exact ⟨rfl, rfl⟩
  · rw [hsuccess] at hfail
    cases hfail

/-- A rejection moves `nextIndex` before the previous entry of the request. -/
theorem Reign.next_of_failure (hg : ∀ k, (r.state k).Follows (g k))
    (ha : Answer r s f K j q t reply call) (hfail : reply.success = false) :
    ((r.state (j + 1)).nodes s).nextIndex f ≤ call.args.prevLogIndex := by
  rcases ha.returned.result with ⟨hsuccess, -⟩ | ⟨-, -, i, hi, heq⟩
  · rw [hfail] at hsuccess
    cases hsuccess
  · rw [heq]
    show Function.update ((r.state j).nodes s).nextIndex f i f ≤ _
    rw [Function.update_self]
    rcases hi with rfl | ⟨-, hi⟩
    · obtain ⟨args, hargs, hbound⟩ := (hg j).replies.request ha.mem
      have hcall := (hg j).calls.call ha.returned.made
      rw [← ha.returned.epoch] at hcall
      obtain ⟨-, rfl⟩ := (hg j).calls.unique hargs hcall
      exact hbound hfail
    · exact hi

/-- **`nextIndex` comes down to what the peer has acknowledged.** -/
theorem Reign.eventually_nextIndex_le (h : Reign r s K) (hg : ∀ k, (r.state k).Follows (g k))
    (hgrows : ∀ j k, j ≤ k → Grows (g j) (g k)) (hf : f ≠ s)
    (hoften : ∀ k ≥ K, CallReturns r s f k) :
    ∀ᶠ j in atTop, ((r.state j).nodes s).nextIndex f
      ≤ (g j).acked f ((r.state K).nodes s).currentTerm := by
  refine Probing.eventually_le
    (fun j => ((r.state j).nodes s).nextIndex f)
    (fun j => (g j).acked f ((r.state K).nodes s).currentTerm)
    (fun j t => ∃ q reply call, Answer r s f K j q t reply call) ?_ ?_ ?_ ?_ ?_ ?_
  · exact fun i j hij => (hgrows i j hij).acked _ _
  · rintro j t ⟨q, reply, call, ha⟩
    exact ha.past.le
  · intro k
    filter_upwards [h.eventually_fresh f (max k K)] with j hj t ⟨q, reply, call, ha⟩
    -- a call made before `k` would have a smaller number
    have hq := hj q ha.returns
    by_contra hlt
    have hstart := ha.start
    have hgrow := (h.callsGrow (j := t + 1) (k := max k K) (by omega) (by omega)).length_le
    have hafter := ha.sent.after
    omega
  · refine frequently_atTop.mpr fun k => ?_
    obtain ⟨j, hj, q, hq, hret⟩ := hoften (max k K) (le_max_right k K)
    obtain ⟨t, -, reply, call, ha⟩ :=
      h.exists_answer (le_max_right k K) (by omega) hret hq
    exact ⟨j, by omega, t, q, reply, call, ha⟩
  · filter_upwards [h.eventually_fresh f K, eventually_ge_atTop K] with j hj hK hno
    rcases h.move hK with ⟨-, hidle⟩ | ⟨a, ha, hmove⟩
    · rw [hidle]
    · refine (hmove.indices_eq hf fun m e q reply hdeliver hm => ?_).1
      have hret : Returns r s f j q := ⟨m, e, reply, hdeliver ▸ ha, hm⟩
      obtain ⟨t, -, reply, call, hans⟩ := h.exists_answer le_rfl hK hret (hj q hret)
      exact hno t ⟨q, reply, call, hans⟩
  · refine Eventually.of_forall ?_
    rintro j t ⟨q, reply, call, ha⟩
    rcases hs : reply.success with _ | _
    · -- a rejection: below the index that was probed
      have hnext := Reign.next_of_failure hg ha hs
      have hprobe := ha.sent.next
      refine .inr ?_
      show ((r.state (j + 1)).nodes s).nextIndex f < ((r.state t).nodes s).nextIndex f
      omega
    · have hacked := h.acked_of_success hg ha hs
      have hmono := (hgrows j (j + 1) (Nat.le_succ j)).acked f ((r.state K).nodes s).currentTerm
      have hnext := (ha.match_of_success hs).1
      refine .inl ?_
      show ((r.state (j + 1)).nodes s).nextIndex f
        ≤ (g (j + 1)).acked f ((r.state K).nodes s).currentTerm
      omega

/-- The log of the leader is the ledger of its term, and it only grows. -/
theorem Reign.ledger (h : Reign r s K) (hg : ∀ k, (r.state k).Follows (g k)) (hj : K ≤ j) :
    (g j).ledger ((r.state K).nodes s).currentTerm = some ((r.state j).nodes s).logs := by
  rw [← h.term j hj]
  exact (((hg j).tracks.refines.node s).leader (h.leader j hj)).2

theorem Reign.logs_isPrefix (h : Reign r s K) (hg : ∀ k, (r.state k).Follows (g k))
    (hgrows : ∀ j k, j ≤ k → Grows (g j) (g k)) (hj : K ≤ j) (hjk : j ≤ k) :
    ((r.state j).nodes s).logs <+: ((r.state k).nodes s).logs := by
  obtain ⟨l, hl, hprefix⟩ := (hgrows j k hjk).ledger _ _ (h.ledger hg hj)
  rw [h.ledger hg (hj.trans hjk)] at hl
  rw [Option.some.inj hl]
  exact hprefix

/-- **A peer whose calls return does not leave the leader's term**: its reply would end the
reign. -/
theorem Reign.peer_term_le (h : Reign r s K) (hg : ∀ k, (r.state k).Follows (g k))
    (hgrows : ∀ j k, j ≤ k → Grows (g j) (g k)) (hoften : ∀ k ≥ K, CallReturns r s f k) (k : ℕ) :
    ((r.state k).nodes f).currentTerm ≤ ((r.state K).nodes s).currentTerm := by
  by_contra hlt
  have hterm : ∀ i ≥ k, ((r.state K).nodes s).currentTerm < ((r.state i).nodes f).currentTerm := by
    intro i hi
    have hmono := (hgrows k i hi).term f
    rw [((hg k).tracks.refines.node f).term, ((hg i).tracks.refines.node f).term] at hmono
    omega
  obtain ⟨j, hj, q, hq, hret⟩ := hoften (max k K) (le_max_right k K)
  obtain ⟨t, ht, reply, call, ha⟩ := h.exists_answer (le_max_right k K) (by omega) hret hq
  obtain ⟨i, hti, hij, -, hanswer⟩ := h.computed hg ha
  have hlti := hterm i (by omega)
  rw [← (h.sent_args ha.start ha.sent).1] at hlti
  -- the reply names the newer term
  have hstale : ((r.state i).nodes f).appendEntries call.args
      = .ok (((r.state i).nodes f).persist, { term := ((r.state i).nodes f).currentTerm }) :=
    if_pos hlti
  rw [hstale] at hanswer
  obtain ⟨-, rfl⟩ := Prod.mk.inj (Except.ok.inj hanswer)
  rcases ha.returned.result with ⟨hsuccess, -⟩ | ⟨-, hle, -⟩
  · cases hsuccess
  · rw [h.term j (ha.start.trans ha.past.le)] at hle
    exact absurd hle (not_le.mpr (hterm i (by omega)))

/-- At the moment `i` server `f` accepts the request `args` and has all of it. -/
structure Accepted (r : (raftSystem n C).Run) (f : Fin n) (i : ℕ)
    (args : AppendEntriesArgs n C) : Prop where
  node : (r.state (i + 1)).nodes f = ((r.state i).nodes f).accepted args
  length : args.prevLogIndex + args.entries.length < ((r.state (i + 1)).nodes f).logs.length

/-- **In the end every call succeeds**: a request from within what the peer has acknowledged
is accepted. -/
theorem Reign.success_of_le (h : Reign r s K) (hg : ∀ k, (r.state k).Follows (g k))
    (hgrows : ∀ j k, j ≤ k → Grows (g j) (g k))
    (hterm : ∀ k, ((r.state k).nodes f).currentTerm ≤ ((r.state K).nodes s).currentTerm)
    (ha : Answer r s f K j q t reply call)
    (hnext : ((r.state t).nodes s).nextIndex f
      ≤ (g t).acked f ((r.state K).nodes s).currentTerm) :
    reply.success = true ∧ ∃ i, t ≤ i ∧ i < j ∧ Accepted r f i call.args := by
  obtain ⟨i, hti, hij, hmem, hanswer⟩ := h.computed hg ha
  have hKi := ha.start.trans hti
  -- the peer has the previous entry of the request
  obtain ⟨prev, hprev, hargs⟩ := ha.sent.prev
  have hacked := (hgrows t i hti).acked f ((r.state K).nodes s).currentTerm
  have hprobe := ha.sent.next
  have hle : (g i).term f ≤ ((r.state K).nodes s).currentTerm := by
    rw [((hg i).tracks.refines.node f).term]
    exact hterm i
  obtain ⟨e, hleader, hpeer⟩ := (hg i).stored.agree (hg i).tracks.wf (h.ledger hg hKi) hle
    (i := call.args.prevLogIndex) (by omega)
  rw [((hg i).tracks.refines.node f).log] at hpeer
  have hsame := getElem?_of_isPrefix (h.logs_isPrefix hg hgrows ha.start hti) hprev
  obtain rfl := Option.some.inj (hsame.symm.trans hleader)
  have hprevTerm : prev.term = call.args.prevLogTerm := by
    rw [hargs]
    rfl
  have hlow : ((r.state i).nodes f).currentTerm ≤ call.args.term := by
    rw [(h.sent_args ha.start ha.sent).1]
    exact hterm i
  rw [Raft.appendEntries_eq hlow hpeer hprevTerm] at hanswer
  obtain ⟨hnode, rfl⟩ := Prod.mk.inj (Except.ok.inj hanswer)
  refine ⟨rfl, i, hti, hij, hnode.symm, ?_⟩
  -- the merged log has all that the request stands for
  obtain ⟨m, hsent⟩ := (hg i).tracks.refines.sent hmem
  rw [← hnode, (Raft.accepted_core _ call.args).2.2.2.2.2]
  rcases (hg i).tracks.refines.mergeLogs_cases (hg i).tracks.wf hsent hpeer hprevTerm with
    ⟨hm, heq⟩ | ⟨-, heq⟩
  · have hlen := hm.length_le
    rw [hsent.length] at hlen
    rw [heq]
    omega
  · rw [heq, hsent.length]
    omega

/-- In the end every call that returns was made after the moment `k` and has succeeded. -/
theorem Reign.eventually_success (h : Reign r s K) (hg : ∀ k, (r.state k).Follows (g k))
    (hgrows : ∀ j k, j ≤ k → Grows (g j) (g k)) (hf : f ≠ s)
    (hoften : ∀ k ≥ K, CallReturns r s f k) (k : ℕ) :
    ∀ᶠ j in atTop, ∀ q, Returns r s f j q → ∃ t ≥ k, ∃ reply call,
      Answer r s f K j q t reply call ∧ reply.success = true ∧
        ∃ i, t ≤ i ∧ i < j ∧ Accepted r f i call.args := by
  have hterm := h.peer_term_le hg hgrows hoften
  obtain ⟨J, hJ⟩ := eventually_atTop.mp (h.eventually_nextIndex_le hg hgrows hf hoften)
  filter_upwards [h.eventually_fresh f (max (max k J) K), eventually_ge_atTop K]
    with j hj hK q hret
  obtain ⟨t, ht, reply, call, ha⟩ :=
    h.exists_answer (le_max_right (max k J) K) hK hret (hj q hret)
  exact ⟨t, by omega, reply, call, ha, h.success_of_le hg hgrows hterm ha (hJ t (by omega))⟩

/-- What the leader has at the moment `k`, the peer has acknowledged in the end, and the
leader has recorded it. -/
theorem Reign.eventually_matched (h : Reign r s K) (hg : ∀ k, (r.state k).Follows (g k))
    (hgrows : ∀ j k, j ≤ k → Grows (g j) (g k)) (hf : f ≠ s)
    (hoften : ∀ k ≥ K, CallReturns r s f k) (hk : K ≤ k) :
    ∀ᶠ j in atTop, ((r.state k).nodes s).logs.length ≤ ((r.state j).nodes s).matchIndex f + 1 ∧
      ((r.state k).nodes s).logs.length ≤ (g j).acked f ((r.state K).nodes s).currentTerm := by
  obtain ⟨J, hJ⟩ := eventually_atTop.mp (h.eventually_success hg hgrows hf hoften k)
  -- a return after this moment is a success with all of the log at `k`
  have hanswer : ∀ j ≥ J, ∀ q, Returns r s f j q →
      ((r.state k).nodes s).logs.length ≤ ((r.state (j + 1)).nodes s).matchIndex f + 1 ∧
        ((r.state k).nodes s).logs.length
          ≤ (g (j + 1)).acked f ((r.state K).nodes s).currentTerm := by
    intro j hj q hret
    obtain ⟨t, ht, reply, call, ha, hsuccess, -⟩ := hJ j hj q hret
    have hmatch := (ha.match_of_success hsuccess).2
    have hacked := h.acked_of_success hg ha hsuccess
    have hmono := (hgrows j (j + 1) (Nat.le_succ j)).acked f ((r.state K).nodes s).currentTerm
    have hlen := (h.sent_args ha.start ha.sent).2.1
    have hgrow := (h.logs_isPrefix hg hgrows hk ht).length_le
    omega
  obtain ⟨j₀, hj₀, q₀, -, hret₀⟩ := hoften (max J K) (le_max_right J K)
  refine eventually_atTop.mpr ⟨j₀ + 1, fun j hj => ?_⟩
  induction j, hj using Nat.le_induction with
  | base => exact hanswer j₀ (by omega) q₀ hret₀
  | succ j hj ih =>
      by_cases hret : ∃ q, Returns r s f j q
      · obtain ⟨q, hret⟩ := hret
        exact hanswer j (by omega) q hret
      · have hmono := (hgrows j (j + 1) (Nat.le_succ j)).acked f
          ((r.state K).nodes s).currentTerm
        refine ⟨?_, ih.2.trans hmono⟩
        rcases h.move (j := j) (by omega) with ⟨-, hidle⟩ | ⟨a, ha, hmove⟩
        · rw [hidle]
          exact ih.1
        · rw [(hmove.indices_eq hf fun m e q reply hdeliver hm =>
            hret ⟨q, m, e, reply, hdeliver ▸ ha, hm⟩).2]
          exact ih.1

/-- The peer holds, at the same index, what the leader holds at the moment `k`. -/
theorem Reign.eventually_holds (h : Reign r s K) (hg : ∀ k, (r.state k).Follows (g k))
    (hgrows : ∀ j k, j ≤ k → Grows (g j) (g k)) (hf : f ≠ s)
    (hoften : ∀ k ≥ K, CallReturns r s f k) (hk : K ≤ k) {i : ℕ} {e : LogEntry C}
    (he : ((r.state k).nodes s).logs[i]? = some e) :
    ∀ᶠ j in atTop, ((r.state j).nodes f).logs[i]? = some e := by
  have hterm := h.peer_term_le hg hgrows hoften
  obtain ⟨hlt, -⟩ := List.getElem?_eq_some_iff.mp he
  filter_upwards [h.eventually_matched hg hgrows hf hoften hk, eventually_ge_atTop k]
    with j hj hkj
  have hacked := hj.2
  have hle : (g j).term f ≤ ((r.state K).nodes s).currentTerm := by
    rw [((hg j).tracks.refines.node f).term]
    exact hterm j
  obtain ⟨e', hleader, hpeer⟩ := (hg j).stored.agree (hg j).tracks.wf (h.ledger hg (hk.trans hkj))
    hle (i := i) (by omega)
  have hsame := getElem?_of_isPrefix (h.logs_isPrefix hg hgrows hk hkj) he
  obtain rfl := Option.some.inj (hsame.symm.trans hleader)
  rw [← ((hg j).tracks.refines.node f).log]
  exact hpeer

end Replication

/-! ## Catching up -/

/-- When no later call returns, none returns after that either. -/
theorem Reign.not_callReturns (h : Reign r s K) (hj : K ≤ j) (hno : ¬ CallReturns r s f j)
    (hjk : j ≤ k) : ¬ CallReturns r s f k := by
  rintro ⟨i, hi, q, hq, hret⟩
  have hgrow := (h.callsGrow hj hjk).length_le
  exact hno ⟨i, by omega, q, by omega, hret⟩

/-- **A stable leader brings a peer up to date.**  In every run with sound elections and
`Start`s: suppose that from the moment `K` on `s` leads one term without a break and that, as
long as the log of `f` lacks an entry that the leader has at the moment `k`, some later append
call of `s` to `f` returns.  Then the log of `f` has this entry in the end, and keeps it,
whatever logs the two had before and however late and out of order the replies arrive. -/
theorem follower_catchesUp (r : (raftSystem n C).Run) (hok : r.Meets Cluster.SoundLog)
    (s f : Fin n) (hf : f ≠ s) (K : ℕ) (hreign : Reign r s K) (k : ℕ) (hk : K ≤ k) (i : ℕ)
    (e : LogEntry C) (he : ((r.state k).nodes s).logs[i]? = some e)
    (hfair : ∀ j ≥ K, ((r.state j).nodes f).logs[i]? ≠ some e → CallReturns r s f j) :
    ∃ j, ∀ m ≥ j, ((r.state m).nodes f).logs[i]? = some e := by
  obtain ⟨g, hg, hgrows⟩ := exists_follows r hok
  by_cases hoften : ∀ j ≥ K, CallReturns r s f j
  · exact eventually_atTop.mp (hreign.eventually_holds hg hgrows hf hoften hk he)
  · push Not at hoften
    obtain ⟨j, hj, hno⟩ := hoften
    refine ⟨j, fun m hm => ?_⟩
    by_contra hlacks
    exact hreign.not_callReturns hj hno hm (hfair m (by omega) hlacks)

/-- The reign at the end of a finite run. -/
theorem reign_ofList {l : List (Action n C)} (hK : K ≤ l.length)
    (h : ∀ k < l.length + 1, K ≤ k →
      ((((raftSystem n C).ofList l).state k).nodes s).state = .leader ∧
      ((((raftSystem n C).ofList l).state k).nodes s).epoch
        = ((((raftSystem n C).ofList l).state K).nodes s).epoch ∧
      ((((raftSystem n C).ofList l).state k).nodes s).currentTerm
        = ((((raftSystem n C).ofList l).state K).nodes s).currentTerm) :
    Reign ((raftSystem n C).ofList l) s K := by
  have hall := TransitionSystem.ofList_forall_ge (S := raftSystem n C) (K := K)
    (P := fun c => (c.nodes s).state = .leader ∧
      (c.nodes s).epoch = ((((raftSystem n C).ofList l).state K).nodes s).epoch ∧
      (c.nodes s).currentTerm = ((((raftSystem n C).ofList l).state K).nodes s).currentTerm) h hK
  exact ⟨fun k hk => (hall k hk).1, fun k hk => (hall k hk).2.1, fun k hk => (hall k hk).2.2⟩

/-- Server `0` replicates two entries to server `1` only.  Server `1` wins term `2` with the
vote of server `2`, whose log is still empty: its first request there starts too high and is
rejected, the second one is accepted. -/
def lateJoiner : (raftSystem 3 ℕ).Run :=
  (raftSystem 3 ℕ).ofList
    [.electionTimeout 0, .deliver 0, .deliver 2, .startRead 0 7, .startAppend 0 0,
      .startRead 0 8, .startAppend 0 0, .sendHeartbeat 0 0, .deliver 3, .electionTimeout 1,
      .deliver 6, .deliver 7, .sendHeartbeat 1 1, .deliver 8, .deliver 9, .heartbeatTimeout 1,
      .sendHeartbeat 1 2, .deliver 10, .deliver 11, .heartbeatTimeout 1, .sendHeartbeat 1 3,
      .deliver 12, .deliver 13]

/-- Server `2` of `lateJoiner` gets the second entry of term `1` from the leader of term `2`. -/
theorem follower_catchesUp_lateJoiner :
    lateJoiner.Meets Cluster.SoundLog ∧ Reign lateJoiner 1 12 ∧
      ((lateJoiner.state 12).nodes 2).logs[2]? = none ∧
      ((lateJoiner.state 15).nodes 1).nextIndex 2 = 1 ∧
      ∃ j, ∀ m ≥ j, ((lateJoiner.state m).nodes 2).logs[2]? = some ⟨8, 1⟩ := by
  have hok : lateJoiner.Meets Cluster.SoundLog :=
    TransitionSystem.meets_ofList (by decide)
  have hreign : Reign lateJoiner 1 12 := reign_ofList (by decide) (by decide)
  refine ⟨hok, hreign, by decide, by decide, ?_⟩
  refine follower_catchesUp lateJoiner hok 1 2 (by decide) 12 hreign 12 le_rfl 2 ⟨8, 1⟩
    (by decide) fun j hj hlacks => ?_
  -- the call made last returns at the moment `22`; by then the entry is there
  have hhas : ∀ k ≥ 18, ((lateJoiner.state k).nodes 2).logs[2]? = some ⟨8, 1⟩ :=
    TransitionSystem.ofList_forall_ge (S := raftSystem 3 ℕ)
      (P := fun c => (c.nodes 2).logs[2]? = some ⟨8, 1⟩) (by decide) (by decide)
  have hcalls : ∀ k < 18, ((lateJoiner.state k).nodes 1).appends.length ≤ 2 := by
    decide
  have hlt : j < 18 := by
    by_contra hge
    exact hlacks (hhas j (by omega))
  exact ⟨22, by omega, 2, hcalls j hlt, 13, 0, { success := true }, by decide, by decide⟩

end Runs

end Mit6824
