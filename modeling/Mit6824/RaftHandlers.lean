/-
# The follower-side handlers stay inside the log

`RequestVote` reads the last entry of the log, `AppendEntries` the entry at
`PrevLogIndex` and then, on a mismatch, entry after entry backwards until the term
changes.  The backward loop has no test for the start of the log.  It ends because
the entry at index `0` has term `0` and no other entry has: a mismatch at index `0`
is impossible, and the loop looks for the end of a block of some term `≥ 1`.

`Grounded` says this of the terms of a log.  `GroundInv` says it of every log, and
what follows from it of every append request and of every `Start` under way; it
holds in every run, without any condition on the steps.  From it:

* no request handler panics, at whatever moment its request arrives, and a mismatch
  is answered with a conflict index between `1` and `PrevLogIndex`
  (`followerHandlers_safe`);
* in particular every request has one of the outcomes of the handler, a fact that
  later modules use (`GroundInv.requestVote_ok`, `GroundInv.appendEntries_ok`).
-/
import Mit6824.RaftIndex
import Mit6824.RaftTerms

namespace Mit6824

/-! ## Grounded terms -/

/-- The first term is `0`, and all the others lie between `1` and `T`. -/
structure Grounded (ts : List ℕ) (T : ℕ) : Prop where
  head : ts[0]? = some 0
  tail : ∀ i t, ts[i + 1]? = some t → 1 ≤ t ∧ t ≤ T

namespace Grounded

variable {ts us : List ℕ} {t T U : ℕ}

theorem mono (h : Grounded ts T) (hT : T ≤ U) : Grounded ts U :=
  ⟨h.head, fun i t ht => ⟨(h.tail i t ht).1, (h.tail i t ht).2.trans hT⟩⟩

theorem length_pos (h : Grounded ts T) : 0 < ts.length :=
  (List.getElem?_eq_some_iff.mp h.head).1

/-- A term is `0` at index `0` only. -/
theorem eq_zero_iff (h : Grounded ts T) {i : ℕ} (hi : ts[i]? = some t) : t = 0 ↔ i = 0 := by
  cases i with
  | zero =>
      rw [h.head] at hi
      simp [(Option.some.inj hi).symm]
  | succ i =>
      have := (h.tail i t hi).1
      omega

/-- What comes behind any index. -/
theorem of_mem_drop (h : Grounded ts T) {i : ℕ} (ht : t ∈ ts.drop (i + 1)) : 1 ≤ t ∧ t ≤ T := by
  obtain ⟨j, hj⟩ := List.mem_iff_getElem?.mp ht
  rw [List.getElem?_drop, show i + 1 + j = i + j + 1 by omega] at hj
  exact h.tail (i + j) t hj

/-- A tail of positive terms behind a beginning of a grounded list. -/
theorem splice (h : Grounded ts T) (hT : T ≤ U) (i : ℕ) (hus : ∀ t ∈ us, 1 ≤ t ∧ t ≤ U) :
    Grounded (ts.take (i + 1) ++ us) U := by
  have hlen : 0 < (ts.take (i + 1)).length := by
    have := h.length_pos
    rw [List.length_take]
    omega
  constructor
  · rw [List.getElem?_append_left hlen, List.getElem?_take_of_lt (Nat.succ_pos i), h.head]
  · intro j t ht
    rcases Nat.lt_or_ge (j + 1) (ts.take (i + 1)).length with hlt | hge
    · have hi : j + 1 < i + 1 := by
        rw [List.length_take] at hlt
        omega
      rw [List.getElem?_append_left hlt, List.getElem?_take_of_lt hi] at ht
      exact (h.mono hT).tail j t ht
    · rw [List.getElem?_append_right hge] at ht
      exact hus t (List.mem_of_getElem? ht)

end Grounded

/-! ## The backward loop -/

namespace Raft

variable {n : ℕ} {C : Type} {me : Fin n} {rf : Raft C me}

/-- **The backward loop ends** when it starts inside a grounded log and looks for a
term that is not `0`. -/
theorem conflictScan_isSome {logs : List (LogEntry C)} {T t i : ℕ}
    (h : Grounded (logs.map LogEntry.term) T) (ht : 1 ≤ t) (hi : i < logs.length) :
    ∃ j, conflictScan logs t (i + 1) = some j := by
  induction i with
  | zero =>
      obtain ⟨e, he, hterm⟩ := Option.map_eq_some_iff.mp ((List.getElem?_map ..).symm.trans h.head)
      have hne : e.term ≠ t := by omega
      exact ⟨1, by simp only [conflictScan, he, hne, if_false]⟩
  | succ i ih =>
      rw [conflictScan, List.getElem?_eq_getElem hi]
      dsimp only
      split_ifs with hterm
      · exact ih (by omega)
      · exact ⟨i + 2, rfl⟩

/-- `RequestVote` answers when the log is not empty. -/
theorem requestVote_isOk (hne : rf.logs ≠ []) (args : RequestVoteArgs n) :
    ∃ out, rf.requestVote args = .ok out := by
  by_cases hr : rf.refusesVote args
  · exact ⟨_, if_pos hr⟩
  · have hpos : 0 < rf.logs.length := List.length_pos_of_ne_nil hne
    rw [requestVote_eq hr (List.getElem?_eq_getElem (by omega))]
    split_ifs
    · exact ⟨_, rfl⟩
    · exact ⟨_, rfl⟩

/-- The answer of `AppendEntries` to a previous entry of another term. -/
theorem appendEntries_of_conflict {args : AppendEntriesArgs n C} {prev : LogEntry C} {i : ℕ}
    (hle : rf.currentTerm ≤ args.term) (hprev : rf.logs[args.prevLogIndex]? = some prev)
    (hterm : prev.term ≠ args.prevLogTerm)
    (hscan : conflictScan rf.logs prev.term args.prevLogIndex = some i) :
    rf.appendEntries args = .ok ((rf.observeTerm args.term).persist,
      { term := args.term, conflictTerm := prev.term, conflictIndex := i }) := by
  unfold appendEntries
  rw [if_neg (not_lt.mpr hle)]
  dsimp only
  rw [observeTerm_logs, observeTerm_currentTerm, max_eq_right hle, hprev]
  dsimp only
  rw [if_pos hterm, hscan]

/-- The answer of `AppendEntries` when the log ends before the previous entry. -/
theorem appendEntries_of_short {args : AppendEntriesArgs n C}
    (hle : rf.currentTerm ≤ args.term) (hshort : rf.logs[args.prevLogIndex]? = none) :
    rf.appendEntries args = .ok ((rf.observeTerm args.term).persist,
      { term := args.term, conflictTerm := -1, conflictIndex := rf.logs.length }) := by
  unfold appendEntries
  rw [if_neg (not_lt.mpr hle)]
  dsimp only
  rw [observeTerm_logs, observeTerm_currentTerm, max_eq_right hle, hshort]

/-- **A mismatch on a grounded log** is found at an index `≥ 1`, at a term `≥ 1`, and
the backward loop stops at an index between `1` and there. -/
theorem exists_conflict {args : AppendEntriesArgs n C} {prev : LogEntry C} {T : ℕ}
    (h : Grounded (rf.logs.map LogEntry.term) T)
    (hargs : args.prevLogTerm = 0 ↔ args.prevLogIndex = 0)
    (hprev : rf.logs[args.prevLogIndex]? = some prev) (hterm : prev.term ≠ args.prevLogTerm) :
    1 ≤ prev.term ∧ ∃ i, conflictScan rf.logs prev.term args.prevLogIndex = some i ∧
      1 ≤ i ∧ i ≤ args.prevLogIndex := by
  have hget : (rf.logs.map LogEntry.term)[args.prevLogIndex]? = some prev.term := by
    rw [List.getElem?_map, hprev]
    rfl
  have hzero := h.eq_zero_iff hget
  -- at index `0` both terms would be `0`
  have hpos : args.prevLogIndex ≠ 0 := by
    intro hi
    exact hterm ((hzero.mpr hi).trans (hargs.mpr hi).symm)
  have hpos' : 1 ≤ prev.term := by
    have := mt hzero.mp hpos
    omega
  obtain ⟨j, hj⟩ : ∃ j, args.prevLogIndex = j + 1 := ⟨args.prevLogIndex - 1, by omega⟩
  obtain ⟨hlt, -⟩ := List.getElem?_eq_some_iff.mp hprev
  obtain ⟨i, hi⟩ := conflictScan_isSome h hpos' (show j < rf.logs.length by omega)
  rw [← hj] at hi
  exact ⟨hpos', i, hi, conflictScan_bounds hi⟩

/-- **`AppendEntries` answers** every request of a grounded log to a grounded log. -/
theorem appendEntries_isOk {args : AppendEntriesArgs n C} {T : ℕ}
    (h : Grounded (rf.logs.map LogEntry.term) T)
    (hargs : args.prevLogTerm = 0 ↔ args.prevLogIndex = 0) :
    ∃ out, rf.appendEntries args = .ok out := by
  by_cases ht : args.term < rf.currentTerm
  · exact ⟨_, if_pos ht⟩
  · have hle := not_lt.mp ht
    rcases hprev : rf.logs[args.prevLogIndex]? with _ | prev
    · exact ⟨_, appendEntries_of_short hle hprev⟩
    · by_cases hterm : prev.term = args.prevLogTerm
      · exact ⟨_, appendEntries_eq hle hprev hterm⟩
      · obtain ⟨-, i, hscan, -⟩ := exists_conflict h hargs hprev hterm
        exact ⟨_, appendEntries_of_conflict hle hprev hterm hscan⟩

@[simp] theorem restart_starts [Inhabited C] (rf : Raft C me) : rf.restart.starts = [] := by
  unfold restart make readPersist
  rcases rf.persister with _ | d
  · rfl
  · rfl

end Raft

namespace Cluster

variable {n : ℕ} {C : Type} [Inhabited C] {c : Cluster n C} {a : Action n C} {s : Fin n}
  {rf : Raft C s} {msgs : List (Msg n C)} {events : List (Event n C)}

/-! ## Where a pending `Start` comes from -/

/-- A `Start` under way was there before, or it has just found itself on a leader. -/
theorem Move.mem_starts (h : Move c a s rf msgs events) {p : PendingStart C}
    (hp : p ∈ rf.starts) : p ∈ (c.nodes s).starts ∨
      (c.nodes s).state = .leader ∧ p.term = (c.nodes s).currentTerm := by
  cases h with
  | crash => simp at hp
  | handlerPanic => simp at hp
  | campaignPanic => simp at hp
  | campaign => exact .inl hp
  | heartbeat =>
      obtain ⟨hb, hshape⟩ := (c.nodes s).heartbeatTimeout_shape
      rw [hshape] at hp
      exact .inl hp
  | heartbeatSkip => exact .inl hp
  | heartbeatSend => exact .inl hp
  | voteRefuse => exact .inl hp
  | voteBehind =>
      rw [Raft.persist_starts, Raft.observeTerm_starts] at hp
      exact .inl hp
  | voteGrant m src e k dst args last hm hrefuse hlast hup =>
      have hp' : p ∈ ((c.nodes s).observeTerm args.term).starts := hp
      rw [Raft.observeTerm_starts] at hp'
      exact .inl hp'
  | voteCount => exact .inl hp
  | voteElect => exact .inl hp
  | voteOther m src k dst reply round hm hround rf hrf =>
      rcases hrf with rfl | ⟨-, rfl⟩
      · exact .inl hp
      · rw [Raft.persist_starts, Raft.observeTerm_starts] at hp
        exact .inl hp
  | appendStale => exact .inl hp
  | appendReject =>
      rw [Raft.persist_starts, Raft.observeTerm_starts] at hp
      exact .inl hp
  | appendAccept m src e k dst args prev hm hterm hprev hprevTerm =>
      unfold Raft.accepted at hp
      obtain ⟨ci, ap, hshape⟩ := Raft.followed_shape
        { (c.nodes s).observeTerm args.term with
          logs := Raft.mergeLogs (c.nodes s).logs args } args.leaderCommit
      rw [hshape] at hp
      have hp' : p ∈ ((c.nodes s).observeTerm args.term).starts := hp
      rw [Raft.observeTerm_starts] at hp'
      exact .inl hp'
  | replyMatch m src k reply call hm hcall hsuccess =>
      obtain ⟨ni, mi, ci, ap, hshape⟩ :=
        ((c.nodes s).callDone k call).matched_shape call.server call.args
      rw [hshape] at hp
      exact .inl hp
  | replyHigher m src k reply call hm hcall hterm =>
      rw [Raft.persist_starts, Raft.observeTerm_starts] at hp
      exact .inl hp
  | replyBackoff => exact .inl hp
  | startRead s command =>
      unfold Raft.startRead Raft.getState at hp
      dsimp only at hp
      split_ifs at hp with hlead
      · rcases List.mem_append.mp hp with hold | hnew
        · exact .inl hold
        · rw [List.mem_singleton.mp hnew]
          exact .inr ⟨of_decide_eq_true hlead, rfl⟩
      · exact .inl hp
  | startAppend => exact .inl (List.mem_of_mem_eraseIdx hp)
  | applySend => exact .inl hp
  | applyStore => exact .inl hp

/-! ## The invariant -/

/-- Every log is grounded, and so is whatever can get into a log. -/
structure GroundInv (c : Cluster n C) : Prop where
  log : ∀ s, Grounded ((c.nodes s).logs.map LogEntry.term) (c.nodes s).currentTerm
  request : ∀ {src e k dst args}, .appendEntries src e k dst args ∈ c.net →
    (args.prevLogTerm = 0 ↔ args.prevLogIndex = 0) ∧
      ∀ t ∈ args.entries.map LogEntry.term, 1 ≤ t ∧ t ≤ args.term
  start : ∀ s, ∀ p ∈ (c.nodes s).starts, 1 ≤ p.term ∧ p.term ≤ (c.nodes s).currentTerm
  /-- Only followers are still in term `0`. -/
  role : ∀ s, (c.nodes s).state ≠ .follower → 1 ≤ (c.nodes s).currentTerm

theorem groundInv_init : GroundInv (Cluster.init n C) where
  log := fun _ => ⟨rfl, by intro i t ht; cases ht⟩
  request := by intro src e k dst args hm; cases hm
  start := by intro s p hp; cases hp
  role := by intro s hs; exact absurd rfl hs

omit [Inhabited C] in
/-- What a leader sends is cut from its grounded log. -/
theorem GroundInv.appendArgs (hi : GroundInv c) {i : ℕ} {prev : LogEntry C}
    (hprev : (c.nodes s).logs[i]? = some prev) :
    (((c.nodes s).appendArgs i prev).prevLogTerm = 0 ↔
        ((c.nodes s).appendArgs i prev).prevLogIndex = 0) ∧
      ∀ t ∈ ((c.nodes s).appendArgs i prev).entries.map LogEntry.term,
        1 ≤ t ∧ t ≤ ((c.nodes s).appendArgs i prev).term := by
  constructor
  · refine (hi.log s).eq_zero_iff ?_
    show ((c.nodes s).logs.map LogEntry.term)[i]? = some prev.term
    rw [List.getElem?_map, hprev]
    rfl
  · intro t ht
    have ht' : t ∈ ((c.nodes s).logs.drop (i + 1)).map LogEntry.term := ht
    rw [List.map_drop] at ht'
    exact (hi.log s).of_mem_drop ht'

omit [Inhabited C] in
theorem GroundInv.put_request (hi : GroundInv c) (hcore : CoreMove c a s rf msgs events)
    {src dst : Fin n} {e k : ℕ} {args : AppendEntriesArgs n C}
    (hm : .appendEntries src e k dst args ∈ (c.put s rf msgs events).net) :
    (args.prevLogTerm = 0 ↔ args.prevLogIndex = 0) ∧
      ∀ t ∈ args.entries.map LogEntry.term, 1 ≤ t ∧ t ≤ args.term := by
  rcases List.mem_append.mp hm with hold | hnew
  · exact hi.request hold
  · cases hcore with
    | drift a s rf msgs events hdrift hstate hquiet =>
        obtain ⟨-, i, prev, hprev, rfl⟩ := hquiet.append hnew
        exact hi.appendArgs hprev
    | _ => simp at hnew

omit [Inhabited C] in
/-- The log of the server that moves is grounded again. -/
theorem GroundInv.put_log (hi : GroundInv c) (hcore : CoreMove c a s rf msgs events) :
    Grounded (rf.logs.map LogEntry.term) rf.currentTerm := by
  rcases hcore.logs_cases with hlogs |
    ⟨src, e, k, args, prev, hm, hle, hprev, hprevTerm, hterm, hlogs⟩ | ⟨k, p, rfl, hp, hterm, hlogs⟩
  · rw [hlogs]
    exact (hi.log s).mono hcore.currentTerm_le
  · rw [hlogs, hterm]
    rcases Raft.mergeLogs_terms (c.nodes s).logs args with hsame | hterms
    · rw [hsame]
      exact (hi.log s).mono hle
    · -- the entries of the request stand behind the previous entry
      rw [hterms]
      exact (hi.log s).splice hle args.prevLogIndex (hi.request hm).2
  · have happend : rf.logs.map LogEntry.term
        = ((c.nodes s).logs.map LogEntry.term).take ((c.nodes s).logs.length + 1)
          ++ [p.term] := by
      rw [List.take_of_length_le (by rw [List.length_map]; omega), hlogs]
      exact List.map_append
    rw [happend, hterm]
    refine (hi.log s).splice le_rfl _ ?_
    intro t ht
    rw [List.mem_singleton.mp ht]
    exact hi.start s p (List.mem_of_getElem? hp)

/-- A new `Start` is in the term of a leader, an old one in an earlier term or this one. -/
theorem GroundInv.put_start (hi : GroundInv c) (hmove : Move c a s rf msgs events)
    (hcore : CoreMove c a s rf msgs events) {p : PendingStart C} (hp : p ∈ rf.starts) :
    1 ≤ p.term ∧ p.term ≤ rf.currentTerm := by
  have hterm := hcore.currentTerm_le
  rcases hmove.mem_starts hp with hold | ⟨hlead, heq⟩
  · have := hi.start s p hold
    omega
  · have := hi.role s (by rw [hlead]; simp)
    omega

omit [Inhabited C] in
/-- A server leaves term `0` when it stops being a follower. -/
theorem GroundInv.put_role (hi : GroundInv c) (hcore : CoreMove c a s rf msgs events)
    (hstate : rf.state ≠ .follower) : 1 ≤ rf.currentTerm := by
  have hterm := hcore.currentTerm_le
  have hobserve : ∀ t, ((c.nodes s).observeTerm t).state ≠ .follower → 1 ≤ rf.currentTerm := by
    intro t hne
    have hle := Raft.observeTerm_of_state_ne hne
    rw [Raft.observeTerm_of_le hle] at hne
    exact (hi.role s hne).trans hterm
  cases hcore with
  | drift a s rf msgs events hdrift hrole hquiet =>
      rcases hrole with hrole | ⟨hrole, -⟩
      · exact absurd hrole hstate
      · rw [hrole] at hstate
        exact (hi.role s hstate).trans hterm
  | reboot a s rf hepoch hrole hle hvote hlogs helections => exact absurd hrole hstate
  | campaign s last hlast => exact Nat.succ_pos _
  | grant m src e k dst args last hm hrefuse hlast hup => exact hobserve args.term hstate
  | elect m src k dst reply round hm hround hwait hgranted hrole hcount hdrift =>
      exact (hi.role s (by rw [hrole]; simp)).trans hterm
  | accept m src e k dst args prev hm hle hprev hprevTerm =>
      rw [(Raft.accepted_core (c.nodes s) args).2.2.1] at hstate
      exact hobserve args.term hstate
  | append s k p hp rf hrf =>
      subst hrf
      exact hi.role s hstate

/-- **Every step keeps the logs grounded.** -/
theorem GroundInv.put (hi : GroundInv c) (hmove : Move c a s rf msgs events)
    (hcore : CoreMove c a s rf msgs events) : GroundInv (c.put s rf msgs events) where
  log := (forall_put (P := fun _ node =>
    Grounded (node.logs.map LogEntry.term) node.currentTerm)).mpr
      ⟨hi.put_log hcore, fun t _ => hi.log t⟩
  request := hi.put_request hcore
  start := (forall_put (P := fun _ node =>
    ∀ p ∈ node.starts, 1 ≤ p.term ∧ p.term ≤ node.currentTerm)).mpr
      ⟨fun _ hp => hi.put_start hmove hcore hp, fun t _ => hi.start t⟩
  role := (forall_put (P := fun _ node => node.state ≠ .follower → 1 ≤ node.currentTerm)).mpr
    ⟨hi.put_role hcore, fun t _ => hi.role t⟩

omit [Inhabited C] in
theorem GroundInv.logs_ne_nil (hi : GroundInv c) (s : Fin n) : (c.nodes s).logs ≠ [] := by
  have hpos := (hi.log s).length_pos
  rw [List.length_map] at hpos
  exact List.ne_nil_of_length_pos hpos

omit [Inhabited C] in
/-- A vote request that arrives is answered. -/
theorem GroundInv.requestVote_ok (hi : GroundInv c) (s : Fin n) (args : RequestVoteArgs n) :
    ∃ out, (c.nodes s).requestVote args = .ok out :=
  Raft.requestVote_isOk (hi.logs_ne_nil s) args

omit [Inhabited C] in
/-- An append request that arrives is answered. -/
theorem GroundInv.appendEntries_ok (hi : GroundInv c) {src dst : Fin n} {e k : ℕ}
    {args : AppendEntriesArgs n C} (hm : .appendEntries src e k dst args ∈ c.net) :
    ∃ out, (c.nodes dst).appendEntries args = .ok out :=
  Raft.appendEntries_isOk (hi.log dst) (hi.request hm).1

end Cluster

/-! ## Whole runs -/

section Runs

variable {n : ℕ} {C : Type} [Inhabited C]

/-- The logs are grounded at every moment of every run. -/
theorem groundInv_run (r : (raftSystem n C).Run) (k : ℕ) : (r.state k).GroundInv := by
  have h := r.invariant r.meets_true (I := fun c => c.VoteInv ∧ c.GroundInv)
    ⟨Cluster.voteInv_init, Cluster.groundInv_init⟩ (by
      rintro c a c' ⟨hvotes, hi⟩ - hstep
      obtain ⟨s, rf, msgs, events, rfl, hmove⟩ := Cluster.step_move hstep
      exact ⟨hvotes.step hstep, hi.put hmove (hmove.core (hvotes.synced s))⟩)
  exact (h k).2

/-- **The follower-side handlers never fault.**  At every moment of every run: every log
begins with an entry of term `0` and continues with terms between `1` and the server's
own; an append request in flight has `PrevLogTerm = 0` exactly when `PrevLogIndex = 0`;
each request in flight is answered when it arrives now, and so is a successful append
reply, whose handler may call `setCommitIndex`; and on a mismatch the backward loop ends,
at an index between `1` and `PrevLogIndex`, with a conflict term `≥ 1`. -/
theorem followerHandlers_safe (r : (raftSystem n C).Run) (k : ℕ) :
    (∀ s, ((r.state k).nodes s).logs ≠ [] ∧
      ∀ (i : ℕ) (e : LogEntry C), ((r.state k).nodes s).logs[i]? = some e →
        (i = 0 → e.term = 0) ∧
          (i ≠ 0 → 1 ≤ e.term ∧ e.term ≤ ((r.state k).nodes s).currentTerm)) ∧
    (∀ src e j dst args, .requestVote src e j dst args ∈ (r.state k).net →
      ∃ out, ((r.state k).nodes dst).requestVote args = .ok out) ∧
    (∀ src e j dst args, .appendEntries src e j dst args ∈ (r.state k).net →
      (args.prevLogTerm = 0 ↔ args.prevLogIndex = 0) ∧
        ∃ rf reply, ((r.state k).nodes dst).appendEntries args = .ok (rf, reply) ∧
          ∀ prev, ((r.state k).nodes dst).currentTerm ≤ args.term →
            ((r.state k).nodes dst).logs[args.prevLogIndex]? = some prev →
            prev.term ≠ args.prevLogTerm →
            Raft.conflictScan ((r.state k).nodes dst).logs prev.term args.prevLogIndex
                = some reply.conflictIndex ∧
              reply.success = false ∧ 1 ≤ reply.conflictIndex ∧
              reply.conflictIndex ≤ args.prevLogIndex ∧ 1 ≤ reply.conflictTerm) ∧
    (∀ s (j : ℕ) (call : AppendCall n C) (reply : AppendEntriesReply),
      ((r.state k).nodes s).appends[j]? = some call → reply.success = true →
      ∃ rf, (((r.state k).nodes s).callDone j call).appendReply call.server call.args reply
        = .ok rf) := by
  have hi := groundInv_run r k
  refine ⟨fun s => ⟨hi.logs_ne_nil s, fun i e he => ?_⟩, fun src e j dst args _ =>
    hi.requestVote_ok dst args, fun src e j dst args hm => ⟨(hi.request hm).1, ?_⟩,
    fun s j call reply _ hsuccess => ⟨_, Raft.appendReply_of_success hsuccess⟩⟩
  · have hget : (((r.state k).nodes s).logs.map LogEntry.term)[i]? = some e.term := by
      rw [List.getElem?_map, he]
      rfl
    refine ⟨((hi.log s).eq_zero_iff hget).mpr, fun hne => ?_⟩
    obtain ⟨j, rfl⟩ := Nat.exists_eq_succ_of_ne_zero hne
    exact (hi.log s).tail j e.term hget
  · obtain ⟨⟨rf, reply⟩, hout⟩ := hi.appendEntries_ok hm
    refine ⟨rf, reply, hout, fun prev hle hprev hterm => ?_⟩
    obtain ⟨hpos, i, hscan, hlow, hhigh⟩ :=
      Raft.exists_conflict (hi.log dst) (hi.request hm).1 hprev hterm
    rw [Raft.appendEntries_of_conflict hle hprev hterm hscan] at hout
    cases hout
    exact ⟨hscan, rfl, hlow, hhigh, Int.ofNat_le.mpr hpos⟩

end Runs

end Mit6824
