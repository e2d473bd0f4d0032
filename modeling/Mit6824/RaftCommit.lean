/-
# Commit: state machine safety and leader completeness

What is committed under the abstract log: a commit index is *settled* when the
log up to it is part of a chosen prefix, in a term the server has reached.  The
counting loop settles an index when the replies it counts are acknowledgements
in the leader's own term and the index it commits holds an entry of that term;
the code checks neither, and `SoundCommit` is that condition.  Followers take
over settled indices from their leader, and the apply goroutines send settled
entries only.

* `stateMachineSafety`: what any two servers send on their apply channels at one
  index is the same command;
* `leaderCompleteness`: what a leader commits by counting is in the log of every
  leader of a later term.
-/
import Mit6824.RaftMatch

namespace Mit6824

namespace Raft

variable {n : ℕ} {C : Type} {me : Fin n}

/-- Some index from `i` on is counted on a majority and holds an entry of the
current term. -/
def countsOwnTerm (rf : Raft C me) (i : ℕ) : Prop :=
  ∃ j < rf.logs.length, i ≤ j ∧ n / 2 < rf.matchCount j ∧
    (rf.logs[j]?).map LogEntry.term = some rf.currentTerm

instance (rf : Raft C me) (i : ℕ) : Decidable (rf.countsOwnTerm i) :=
  inferInstanceAs (Decidable (∃ j < rf.logs.length, _))

/-- The handling of this successful reply is sound: a leader records only replies
to requests of its current term, and when some index above the commit index is
then counted on a majority, the server is leader and the largest such index
holds an entry of its current term. -/
def soundMatch (rf : Raft C me) (server : Fin n) (args : AppendEntriesArgs n C) : Prop :=
  (rf.state = .leader → rf.currentTerm = args.term) ∧
    ∀ i < rf.logs.length, rf.commitIndex < i →
      n / 2 < (rf.recordMatch server args).matchCount i →
      rf.state = .leader ∧ (rf.recordMatch server args).countsOwnTerm i

instance (rf : Raft C me) (server : Fin n) (args : AppendEntriesArgs n C) :
    Decidable (rf.soundMatch server args) :=
  inferInstanceAs (Decidable (_ ∧ _))

/-- The counting loop returns the largest index that it counts on a majority. -/
theorem commitScan_max {rf : Raft C me} {i j : ℕ} (h : rf.commitScan i = some j) {k : ℕ}
    (hjk : j < k) (hki : k ≤ i) : ¬ n / 2 < rf.matchCount k := by
  induction i with
  | zero => simp [commitScan] at h
  | succ i ih =>
      rw [commitScan] at h
      split_ifs at h with h1 h2
      · obtain rfl : i + 1 = j := by simpa using h
        omega
      · rcases hki.lt_or_eq with hlt | rfl
        · exact ih h (by omega)
        · exact h2

/-- The counting loop without a result has counted no index on a majority. -/
theorem commitScan_none {rf : Raft C me} {i : ℕ} (h : rf.commitScan i = none) {k : ℕ}
    (hk : rf.commitIndex < k) (hki : k ≤ i) : ¬ n / 2 < rf.matchCount k := by
  induction i with
  | zero => omega
  | succ i ih =>
      rw [commitScan] at h
      split_ifs at h with h1 h2
      · omega
      · rcases hki.lt_or_eq with hlt | rfl
        · exact ih h (by omega)
        · exact h2

/-- What a sound reply commits is an entry of the leader's current term. -/
theorem soundMatch.commit {rf : Raft C me} {server : Fin n} {args : AppendEntriesArgs n C}
    (h : rf.soundMatch server args) {i : ℕ}
    (hi : (rf.recordMatch server args).commitScan (rf.logs.length - 1) = some i) :
    rf.state = .leader ∧ 0 < i ∧ ∃ e, rf.logs[i]? = some e ∧ e.term = rf.currentTerm := by
  obtain ⟨hgt, hle, hcount⟩ := commitScan_some hi
  have hgt' : rf.commitIndex < i := hgt
  obtain ⟨hlead, j, hj, hij, hcountj, hterm⟩ := h.2 i (by omega) hgt' hcount
  have hj' : j < rf.logs.length := hj
  -- the loop stops at the largest index that enough peers have
  have hji : j = i := by
    by_contra hne
    exact commitScan_max hi (lt_of_le_of_ne hij (Ne.symm hne)) (by omega) hcountj
  subst hji
  obtain ⟨e, he, hterm⟩ := Option.map_eq_some_iff.mp hterm
  exact ⟨hlead, by omega, e, he, hterm⟩

end Raft

namespace Cluster

variable {n : ℕ} {C : Type} {c : Cluster n C} {a : Action n C} {s : Fin n}
  {rf : Raft C s} {msgs : List (Msg n C)} {events : List (Event n C)}
  {σ σ' : TermLog.State (Fin n) (LogEntry C)}

open TermLog

/-! ## The condition on commits -/

/-- Delivering this message handles a successful reply soundly. -/
def SoundMatch (c : Cluster n C) : Msg n C → Prop
  | .appendEntriesReply src _ k _ reply => reply.success = true →
      ∀ call ∈ (c.nodes src).appends[k]?, (c.nodes src).soundMatch call.server call.args
  | _ => True

instance (c : Cluster n C) : DecidablePred c.SoundMatch
  | .appendEntriesReply src _ k _ reply => inferInstanceAs (Decidable (reply.success = true →
      ∀ call ∈ (c.nodes src).appends[k]?, (c.nodes src).soundMatch call.server call.args))
  | .requestVote _ _ _ _ _ => .isTrue trivial
  | .requestVoteReply _ _ _ _ _ => .isTrue trivial
  | .appendEntries _ _ _ _ _ => .isTrue trivial

/-- A step that elects, starts and commits soundly. -/
def SoundCommit (c : Cluster n C) (a : Action n C) : Prop :=
  c.SoundLog a ∧ c.Delivers c.SoundMatch a

instance (c : Cluster n C) (a : Action n C) : Decidable (c.SoundCommit a) :=
  inferInstanceAs (Decidable (_ ∧ _))

/-! ## Settled indices -/

/-- Up to index `i`, the log is part of a prefix chosen in a term up to `t`. -/
def Settled (σ : State (Fin n) (LogEntry C)) (t : ℕ) (l : List (LogEntry C)) (i : ℕ) : Prop :=
  ∃ T p, T ≤ t ∧ Chosen LogEntry.term σ T p ∧ i < p.length ∧ p.take (i + 1) <+: l

/-- The entry at index `i` of a chosen prefix. -/
def Decided (σ : State (Fin n) (LogEntry C)) (i : ℕ) (e : LogEntry C) : Prop :=
  ∃ T p, Chosen LogEntry.term σ T p ∧ p[i]? = some e

theorem Settled.grows {t t' : ℕ} {l : List (LogEntry C)} {i : ℕ} (h : Settled σ t l i)
    (hg : Grows σ σ') (ht : t ≤ t') : Settled σ' t' l i := by
  obtain ⟨T, p, hT, hp, hi, hpl⟩ := h
  exact ⟨T, p, hT.trans ht, hp.grows hg, hi, hpl⟩

theorem Settled.mono {t : ℕ} {l l' : List (LogEntry C)} {i j : ℕ} (h : Settled σ t l i)
    (hl : l <+: l') (hj : j ≤ i) : Settled σ t l' j := by
  obtain ⟨T, p, hT, hp, hi, hpl⟩ := h
  refine ⟨T, p, hT, hp, by omega, List.IsPrefix.trans ?_ (hpl.trans hl)⟩
  exact List.take_prefix_take_left (by omega)

/-- Entries up to a settled index are decided. -/
theorem Settled.decided {t : ℕ} {l : List (LogEntry C)} {i j : ℕ} {e : LogEntry C}
    (h : Settled σ t l i) (hj : j ≤ i) (he : l[j]? = some e) : Decided σ j e := by
  obtain ⟨T, p, -, hp, hi, hpl⟩ := h
  refine ⟨T, p, hp, ?_⟩
  have hget : p[j]? = some (p.get ⟨j, by omega⟩) := by
    rw [List.getElem?_eq_getElem (by omega)]
    rfl
  have htake : (p.take (i + 1))[j]? = some (p.get ⟨j, by omega⟩) := by
    rw [List.getElem?_take_of_lt (by omega), hget]
  rw [getElem?_of_isPrefix hpl htake] at he
  rw [hget, he]

theorem Decided.grows {i : ℕ} {e : LogEntry C} (h : Decided σ i e) (hg : Grows σ σ') :
    Decided σ' i e := by
  obtain ⟨T, p, hp, he⟩ := h
  exact ⟨T, p, hp.grows hg, he⟩

/-- **What is decided at an index is one entry.** -/
theorem Decided.unique {i : ℕ} {e e' : LogEntry C} (hs : Safe LogEntry.term σ)
    (hw : Wf LogEntry.term σ) (h : Decided σ i e) (h' : Decided σ i e') : e = e' := by
  obtain ⟨T, p, hp, he⟩ := h
  obtain ⟨T', p', hp', he'⟩ := h'
  rcases chosen_comparable hs hw hp hp' with hpre | hpre
  · rw [getElem?_of_isPrefix hpre he] at he'
    exact Option.some.inj he'
  · rw [getElem?_of_isPrefix hpre he'] at he
    exact (Option.some.inj he).symm

/-- A settled index survives an accepted request: the part of the ledger that
replaces the log has it. -/
theorem Settled.accept {l m : List (LogEntry C)} {args : AppendEntriesArgs n C} {t i : ℕ}
    (h : Settled σ t l i) (hs : Safe LogEntry.term σ) (ht : t ≤ args.term)
    (hsent : Sent σ args m) (hm : ¬ m <+: l) : Settled σ args.term m i := by
  obtain ⟨T, p, hT, hp, hi, hpl⟩ := h
  obtain ⟨l', prev, hl', hbase, hml, -⟩ := hsent
  refine ⟨T, p, hT.trans ht, hp, hi, ?_⟩
  rcases (hT.trans ht).lt_or_eq with hlt | rfl
  · -- chosen in an earlier term: every later base has it
    exact (List.take_prefix _ _).trans ((chosen_base hs hp hlt hl').trans hbase)
  · -- chosen in the term of the request: both are prefixes of one ledger
    obtain ⟨Q, l₁, -, hl₁, hpl₁, -⟩ := hp
    rw [hl'] at hl₁
    obtain rfl := Option.some.inj hl₁
    rcases List.prefix_or_prefix_of_prefix ((List.take_prefix (i + 1) p).trans hpl₁) hml with
      hpre | hpre
    · exact hpre
    · exact absurd (hpre.trans hpl) hm

/-- **A settled index stays settled through every move.** -/
theorem Settled.core [Inhabited C] (h : Tracks c σ) (hcore : CoreMove c a s rf msgs events)
    {i : ℕ} (hi : Settled σ (c.nodes s).currentTerm (c.nodes s).logs i) :
    Settled σ rf.currentTerm rf.logs i := by
  have hsame : rf.logs = (c.nodes s).logs → Settled σ rf.currentTerm rf.logs i := by
    intro hlogs
    rw [hlogs]
    exact hi.grows (Grows.refl σ) hcore.currentTerm_le
  rcases hcore.logs_cases with hlogs |
    ⟨src, e, k, args, prev, hm, hle, hprev, hprevTerm, hterm, hlogs⟩ | ⟨k, p, -, -, hterm, hlogs⟩
  · exact hsame hlogs
  · obtain ⟨l, hsent⟩ := h.refines.sent hm
    rcases h.refines.mergeLogs_cases h.wf hsent hprev hprevTerm with
      ⟨-, hmerged⟩ | ⟨hnot, hmerged⟩
    · exact hsame (hlogs.trans hmerged)
    · rw [hlogs, hmerged, hterm]
      exact hi.accept h.safe hle hsent hnot
  · rw [hlogs, hterm]
    exact hi.mono (List.prefix_append _ _) le_rfl

/-! ## The commit relation -/

/-- Commit indices and what comes from them are settled by the abstract log. -/
structure CommitRel (c : Cluster n C) (σ : State (Fin n) (LogEntry C)) : Prop where
  matched : c.Matched σ
  commit : ∀ s, Settled σ (c.nodes s).currentTerm (c.nodes s).logs (c.nodes s).commitIndex
  message : ∀ {src e k dst args}, .appendEntries src e k dst args ∈ c.net →
    ∃ m, Sent σ args m ∧ Settled σ args.term m args.leaderCommit
  applier : ∀ {s g}, g ∈ (c.nodes s).appliers → ∀ (i : ℕ) e, g.entries[i]? = some e →
    Decided σ (g.startIdx + i) e
  applied : ∀ {s e msg}, .applied s e msg ∈ c.history →
    ∃ entry, entry.command = msg.command ∧ Decided σ msg.commandIndex entry

theorem commitRel_init [Inhabited C] :
    CommitRel (Cluster.init n C) (State.init (default : LogEntry C)) where
  matched := matched_init
  commit := by
    intro s
    have : Nonempty (Fin n) := ⟨s⟩
    exact ⟨0, [default], le_rfl, chosen_init rfl, Nat.zero_lt_one, List.prefix_rfl⟩
  message := by intro src e k dst args h; simp [init] at h
  applier := by intro s g h; simp [init, Raft.make, Raft.readPersist] at h
  applied := by intro s e msg h; simp [init] at h

variable [Inhabited C]

omit [Inhabited C] in
/-- A step that commits soundly records soundly. -/
theorem SoundCommit.record (h : c.SoundCommit a) : c.SoundRecord a := by
  refine ⟨h.1, fun m hm msg hmsg => ?_⟩
  have hsound := h.2 m hm msg hmsg
  cases msg with
  | appendEntriesReply src e k dst reply =>
      exact fun hsuccess call hcall => (hsound hsuccess call hcall).1
  | _ => trivial

omit [Inhabited C] in
/-- **The counting loop settles what it commits.** -/
theorem CommitRel.settled_of_count (hc : ∀ p, rf.matchIndex p = 0 ∨
      rf.matchIndex p < σ.acked p rf.currentTerm) {i : ℕ} (hpos : 0 < i)
    (hledger : σ.ledger rf.currentTerm = some rf.logs) {e : LogEntry C}
    (he : rf.logs[i]? = some e) (hterm : e.term = rf.currentTerm)
    (hcount : n / 2 < rf.matchCount i) : Settled σ rf.currentTerm rf.logs i := by
  obtain ⟨hlt, -⟩ := List.getElem?_eq_some_iff.mp he
  refine ⟨rf.currentTerm, rf.logs.take (i + 1), le_rfl, ?_, ?_, ?_⟩
  · refine ⟨Finset.univ.filter fun p => decide (i ≤ rf.matchIndex p) = true, rf.logs, ?_, hledger,
      List.take_prefix _ _, ⟨e, ?_, hterm⟩, ?_⟩
    · apply isMajority_of_half_lt
      rw [← countP_finRange_eq_card]
      exact hcount
    · rw [List.getLast?_eq_getElem?, List.length_take, List.getElem?_take_of_lt (by omega),
        show min (i + 1) rf.logs.length - 1 = i by omega, he]
    · intro v hv
      have hv' : i ≤ rf.matchIndex v := by simpa using hv
      rw [List.length_take]
      rcases hc v with hzero | hlt
      · omega
      · omega
  · rw [List.length_take]
    omega
  · rw [List.take_take, min_self]
    exact List.take_prefix _ _

/-- What a successful reply commits is settled. -/
theorem CommitRel.settled_of_record (hc : CommitRel c σ) (hcalls : CallInv c) (h : Tracks c σ)
    {k m : ℕ} {reply : AppendEntriesReply} {call : AppendCall n C}
    (hrf : rf = ((c.nodes s).callDone k call).matched call.server call.args)
    (h' : Tracks (c.put s rf [] []) σ') (hg : Grows σ σ') (hok : c.SoundCommit (.deliver m))
    (hm : c.net[m]? = some (.appendEntriesReply s (c.nodes s).epoch k call.server reply))
    (hcall : (c.nodes s).appends[k]? = some call) (hsuccess : reply.success = true) {i : ℕ}
    (hi : (((c.nodes s).callDone k call).recordMatch call.server call.args).commitScan
      ((c.nodes s).logs.length - 1) = some i) :
    (c.nodes s).state = .leader ∧ Settled σ' rf.currentTerm rf.logs i := by
  have hsound : ((c.nodes s).callDone k call).soundMatch call.server call.args :=
    hok.2 _ rfl _ hm hsuccess call hcall
  obtain ⟨hlead, hpos, e, he, hterm⟩ := hsound.commit hi
  have hmove : Move c (.deliver m) s rf [] [] :=
    hrf ▸ .replyMatch m s k reply call hm hcall hsuccess
  obtain ⟨ni, mi, ci, ap, hshape⟩ :=
    ((c.nodes s).callDone k call).matched_shape call.server call.args
  have hstate : rf.state = .leader := by rw [hrf, hshape]; exact hlead
  have hrfterm : rf.currentTerm = (c.nodes s).currentTerm := by rw [hrf, hshape]; rfl
  have hlogs : rf.logs = (c.nodes s).logs := by rw [hrf, hshape]; rfl
  have hcount : rf.matchCount i
      = (((c.nodes s).callDone k call).recordMatch call.server call.args).matchCount i := by
    unfold Raft.matchCount
    rw [hrf, (((c.nodes s).callDone k call).matched_replica call.server call.args).1]
  have hnode := h'.refines.node s
  rw [put_nodes_self] at hnode
  have hmatched : Matched c σ := hc.matched
  refine ⟨hlead, CommitRel.settled_of_count
    (hmatched.put_self hcalls h h' hg hok.record hmove hstate) hpos (hnode.leader hstate).2
    (e := e) ?_ ?_ ?_⟩
  · rw [hlogs]
    exact he
  · rw [hrfterm]
    exact hterm
  · rw [hcount]
    exact (Raft.commitScan_some hi).2.2

/-- The log that an accepted request leaves has all that the request settles. -/
theorem CommitRel.settled_of_accept (hc : CommitRel c σ) (h : Tracks c σ) {src : Fin n} {e k : ℕ}
    {args : AppendEntriesArgs n C} {prev : LogEntry C}
    (hm : .appendEntries src e k s args ∈ c.net)
    (hprev : (c.nodes s).logs[args.prevLogIndex]? = some prev)
    (hprevTerm : prev.term = args.prevLogTerm) {i : ℕ} (hi : i ≤ args.leaderCommit) :
    Settled σ args.term (Raft.mergeLogs (c.nodes s).logs args) i := by
  obtain ⟨m, hsent, hsettled⟩ := hc.message hm
  refine hsettled.mono ?_ hi
  rcases h.refines.mergeLogs_cases h.wf hsent hprev hprevTerm with ⟨hpre, heq⟩ | ⟨-, heq⟩
  · rw [heq]
    exact hpre
  · rw [heq]

/-- The commit index of the server that moves stays settled. -/
theorem CommitRel.put_commit (hc : CommitRel c σ) (hcalls : CallInv c) (h : Tracks c σ)
    (h' : Tracks (c.put s rf msgs events) σ') (hg : Grows σ σ') (hok : c.SoundCommit a)
    (hmove : Move c a s rf msgs events) : Settled σ' rf.currentTerm rf.logs rf.commitIndex := by
  have hold := (Settled.core h (hmove.core (h.votes.synced s)) (hc.commit s)).grows hg le_rfl
  have hreplica := hmove.replica
  cases hreplica with
  | idle a s rf msgs events hframe hmatch hsilent => exact hframe.commitIndex ▸ hold
  | reboot a s rf hepoch hstate hcommit happlied happliers happends hmatch =>
      rw [hcommit]
      exact hold.mono List.prefix_rfl (Nat.zero_le _)
  | elect m s rf hframe hmatch => exact hframe.commitIndex ▸ hold
  | send s k server i prev hstate hprev => exact hold
  | accept m src e k dst args prev hm hle hprev hprevTerm =>
      rcases (c.nodes s).accepted_commit args with ⟨heq, -⟩ | ⟨i, hi, -, heq, -⟩
      · exact heq ▸ hold
      · obtain ⟨-, -, -, -, -, hlogs⟩ := Raft.accepted_core (c.nodes s) args
        rw [heq, hlogs, Raft.accepted_currentTerm, max_eq_right hle]
        exact (hc.settled_of_accept h (List.mem_of_getElem? hm) hprev hprevTerm
          (by omega)).grows hg le_rfl
  | record m src k reply call hm hcall hsuccess =>
      rcases ((c.nodes s).callDone k call).matched_commit call.server call.args with
        ⟨heq, -⟩ | ⟨i, hi, heq, -⟩
      · rw [heq]
        exact hold
      · rw [heq]
        exact (hc.settled_of_record hcalls h rfl h' hg hok hm hcall hsuccess hi).2
  | append s k p hp => exact hold
  | applySend s k g msg hg' hmsg => exact hold
  | applyStore s k g hg' hsent => exact hold

/-- Requests in flight carry settled commit indices. -/
theorem CommitRel.put_message (hc : CommitRel c σ) (h : Tracks c σ) (hg : Grows σ σ')
    (hmove : Move c a s rf msgs events) {src dst : Fin n} {e k : ℕ} {args : AppendEntriesArgs n C}
    (hm : .appendEntries src e k dst args ∈ (c.put s rf msgs events).net) :
    ∃ m, Sent σ' args m ∧ Settled σ' args.term m args.leaderCommit := by
  rcases List.mem_append.mp hm with hold | hnew
  · obtain ⟨m, hsent, hsettled⟩ := hc.message hold
    exact ⟨m, hsent.grows hg, hsettled.grows hg le_rfl⟩
  · have hreplica := hmove.replica
    cases hreplica with
    | idle a s rf msgs events hframe hmatch hsilent => exact absurd hnew hsilent.append
    | send s k' server i prev hstate hprev =>
        simp only [List.mem_singleton, Msg.appendEntries.injEq] at hnew
        obtain ⟨-, -, -, -, rfl⟩ := hnew
        obtain ⟨-, hledger⟩ := (h.refines.node s).leader hstate
        have hsent : Sent σ ((c.nodes s).appendArgs i prev) (c.nodes s).logs :=
          ⟨(c.nodes s).logs, prev, hledger, h.wf.base_isPrefix hledger, List.prefix_rfl, hprev,
            rfl, rfl⟩
        exact ⟨_, hsent.grows hg, (hc.commit s).grows hg le_rfl⟩
    | _ => simp at hnew

omit [Inhabited C] in
/-- A slice of the log up to a settled index is decided. -/
theorem Settled.decided_slice {t : ℕ} {l : List (LogEntry C)} {i start j : ℕ} {e : LogEntry C}
    (h : Settled σ t l i) (he : ((l.take (i + 1)).drop start)[j]? = some e) :
    Decided σ (start + j) e := by
  rw [List.getElem?_drop] at he
  have hlt : start + j < i + 1 := by
    obtain ⟨hlt, -⟩ := List.getElem?_eq_some_iff.mp he
    rw [List.length_take] at hlt
    omega
  rw [List.getElem?_take_of_lt hlt] at he
  exact h.decided (by omega) he

/-- The apply goroutines of the server that moves hold decided entries. -/
theorem CommitRel.put_applier (hc : CommitRel c σ) (hcalls : CallInv c) (h : Tracks c σ)
    (h' : Tracks (c.put s rf msgs events) σ') (hg : Grows σ σ') (hok : c.SoundCommit a)
    (hmove : Move c a s rf msgs events) {g : Applier C} (hmem : g ∈ rf.appliers) (i : ℕ)
    (e : LogEntry C) (he : g.entries[i]? = some e) : Decided σ' (g.startIdx + i) e := by
  rcases hmove.replica.mem_appliers hmem with
    ⟨g', hg', hstart, hentries⟩ | ⟨last, hstart, hentries⟩
  · rw [hentries] at he
    rw [hstart]
    exact (hc.applier hg' i e he).grows hg
  · rw [hentries] at he
    rw [hstart]
    exact (hc.put_commit hcalls h h' hg hok hmove).decided_slice he

/-- What is sent on an apply channel is decided. -/
theorem CommitRel.put_applied (hc : CommitRel c σ) (hg : Grows σ σ')
    (hmove : Move c a s rf msgs events) {t : Fin n} {e : ℕ} {msg : ApplyMsg C}
    (hmem : .applied t e msg ∈ (c.put s rf msgs events).history) :
    ∃ entry, entry.command = msg.command ∧ Decided σ' msg.commandIndex entry := by
  rcases List.mem_append.mp hmem with hold | hnew
  · obtain ⟨entry, hcommand, hdecided⟩ := hc.applied hold
    exact ⟨entry, hcommand, hdecided.grows hg⟩
  · obtain ⟨g, hg', i, entry, hentry, hcommand, hindex⟩ := hmove.replica.mem_applied hnew
    refine ⟨entry, hcommand, ?_⟩
    rw [hindex]
    exact (hc.applier hg' i entry hentry).grows hg

/-- **Every sound step keeps the commit relation.** -/
theorem CommitRel.put (hc : CommitRel c σ) (hcalls : CallInv c) (h : Tracks c σ)
    (h' : Tracks (c.put s rf msgs events) σ') (hg : Grows σ σ') (hok : c.SoundCommit a)
    (hmove : Move c a s rf msgs events) : CommitRel (c.put s rf msgs events) σ' where
  matched := Matched.put hc.matched hcalls h h' hg hok.record hmove
  commit := by
    refine (forall_put (P := fun _ node =>
      Settled σ' node.currentTerm node.logs node.commitIndex)).mpr
        ⟨hc.put_commit hcalls h h' hg hok hmove, fun t _ => (hc.commit t).grows hg le_rfl⟩
  message := hc.put_message h hg hmove
  applier := by
    intro t g hmem i e he
    by_cases ht : t = s
    · subst ht
      rw [put_nodes_self] at hmem
      exact hc.put_applier hcalls h h' hg hok hmove hmem i e he
    · rw [put_nodes_of_ne c ht] at hmem
      exact (hc.applier hmem i e he).grows hg
  applied := hc.put_applied hg hmove

end Cluster

/-! ## State machine safety and leader completeness -/

section Runs

variable {n : ℕ} {C : Type} [Inhabited C]

open TermLog

/-- A cluster whose logs and commits are those of the abstract log. -/
structure Cluster.Commits (c : Cluster n C) (σ : State (Fin n) (LogEntry C)) : Prop where
  tracks : c.Tracks σ
  calls : c.CallInv
  rel : c.CommitRel σ

theorem Cluster.Commits.step {c c' : Cluster n C} {a : Action n C}
    {σ : State (Fin n) (LogEntry C)} (h : c.Commits σ) (hok : c.SoundCommit a)
    (hstep : c.step a = some c') : ∃ σ', Step LogEntry.term σ σ' ∧ c'.Commits σ' := by
  obtain ⟨σ', hσ, htracks⟩ := h.tracks.step hok.1 hstep
  obtain ⟨s, rf, msgs, events, rfl, hmove⟩ := step_move hstep
  exact ⟨σ', hσ, htracks, h.calls.put hmove.replica,
    h.rel.put h.calls h.tracks htracks hσ.grows hok hmove⟩

/-- Messages for one index carry one command. -/
def Cluster.AppliedAgree (c : Cluster n C) : Prop :=
  ∀ {s t e e' msg msg'}, .applied s e msg ∈ c.history → .applied t e' msg' ∈ c.history →
    msg.commandIndex = msg'.commandIndex → msg.command = msg'.command

/-- Commits that are those of the abstract log agree. -/
theorem Cluster.Commits.appliedAgree {c : Cluster n C} {σ : State (Fin n) (LogEntry C)}
    (h : c.Commits σ) : c.AppliedAgree := by
  intro s t e e' msg msg' hmsg hmsg' hindex
  obtain ⟨entry, hcommand, hdecided⟩ := h.rel.applied hmsg
  obtain ⟨entry', hcommand', hdecided'⟩ := h.rel.applied hmsg'
  rw [← hindex] at hdecided'
  rw [← hcommand, ← hcommand', hdecided.unique h.tracks.safe h.tracks.wf hdecided']

/-- A run of sound steps has a run of the abstract log beside it that settles
every commit. -/
theorem exists_commits (r : (raftSystem n C).Run) (hok : r.Meets Cluster.SoundCommit) :
    ∃ g : ℕ → State (Fin n) (LogEntry C), (∀ k, (r.state k).Commits (g k)) ∧
      ∀ j k, j ≤ k → Grows (g j) (g k) :=
  exists_beside r hok ⟨Cluster.tracks_init, Cluster.callInv_init, Cluster.commitRel_init⟩
    fun h => h.step

/-- **State machine safety.**  In every run of sound steps, two messages that
servers have sent on their apply channels for the same index, in whatever
incarnations, carry the same command. -/
theorem stateMachineSafety (r : (raftSystem n C).Run) (hok : r.Meets Cluster.SoundCommit)
    (k : ℕ) (s t : Fin n) (e e' : ℕ) (msg msg' : ApplyMsg C)
    (h : .applied s e msg ∈ (r.state k).history) (h' : .applied t e' msg' ∈ (r.state k).history)
    (hindex : msg.commandIndex = msg'.commandIndex) : msg.command = msg'.command := by
  obtain ⟨g, hcommits, -⟩ := exists_commits r hok
  exact (hcommits k).appliedAgree h h' hindex

theorem handover_soundCommit : handover.Meets Cluster.SoundCommit :=
  TransitionSystem.meets_ofList (by decide)

/-- Both servers of `handover` that apply index `1` apply the same command. -/
theorem stateMachineSafety_handover :
    handover.Meets Cluster.SoundCommit ∧
      .applied 0 0 ⟨true, 7, 1⟩ ∈ (handover.state 21).history ∧
      ∀ msg, .applied 1 0 msg ∈ (handover.state 21).history → 1 = msg.commandIndex →
        7 = msg.command := by
  have hok := handover_soundCommit
  have h0 : .applied 0 0 ⟨true, 7, 1⟩ ∈ (handover.state 21).history := by decide
  refine ⟨hok, h0, fun msg h1 hindex => ?_⟩
  exact stateMachineSafety handover hok 21 0 1 0 0 ⟨true, 7, 1⟩ msg h0 h1 hindex

/-- Server `0` of term `1` and server `2` of term `2` each append an entry at index
`1` that nobody else has.  Server `0`, leader again in term `3`, replicates its
entry of term `1` to server `1` and commits it by counting.  Server `2`, whose
entry is of a later term, wins term `4`, overwrites the committed entry on server
`1` and commits its own. -/
def oldTermCommit : (raftSystem 3 ℕ).Run :=
  (raftSystem 3 ℕ).ofList
    [.electionTimeout 0, .deliver 0, .deliver 2, .startRead 0 7, .startAppend 0 0,
      .electionTimeout 2, .electionTimeout 2, .deliver 6, .deliver 7, .startRead 2 8,
      .startAppend 2 0, .deliver 5, .electionTimeout 0, .deliver 9, .deliver 11,
      .sendHeartbeat 0 0, .deliver 12, .deliver 13, .sendHeartbeat 0 1, .deliver 14,
      .startRead 0 9, .startAppend 0 0, .deliver 15, .applySend 0 0, .deliver 10,
      .electionTimeout 2, .deliver 18, .deliver 19, .startRead 2 6, .startAppend 2 0,
      .sendHeartbeat 2 1, .deliver 20, .deliver 21, .sendHeartbeat 2 2, .deliver 22,
      .deliver 23, .applySend 2 0]

/-- Without the condition on commits, two servers apply different commands at
index `1`. -/
theorem stateMachineSafety_fails :
    ¬ ∀ (r : (raftSystem 3 ℕ).Run) (k : ℕ) (s t : Fin 3) (e e' : ℕ) (msg msg' : ApplyMsg ℕ),
      .applied s e msg ∈ (r.state k).history → .applied t e' msg' ∈ (r.state k).history →
      msg.commandIndex = msg'.commandIndex → msg.command = msg'.command := by
  intro h
  have h0 : .applied 0 0 ⟨true, 7, 1⟩ ∈ (oldTermCommit.state 37).history := by decide +kernel
  have h2 : .applied 2 0 ⟨true, 8, 1⟩ ∈ (oldTermCommit.state 37).history := by decide +kernel
  have heq := h oldTermCommit 37 0 2 0 0 _ _ h0 h2 rfl
  exact absurd heq (by decide)

/-- At moment `j` of the run, the leader `s` advances its commit index by the
counting loop, that is, while it handles an append reply. -/
def AdvancesCommit (r : (raftSystem n C).Run) (j : ℕ) (s : Fin n) : Prop :=
  ∃ m e k dst reply, r.act j = some (.deliver m) ∧
    (r.state j).net[m]? = some (.appendEntriesReply s e k dst reply) ∧
    ((r.state j).nodes s).state = .leader ∧
    ((r.state j).nodes s).commitIndex < ((r.state (j + 1)).nodes s).commitIndex

/-- A commit index that an append reply advances is advanced by the branch of the
handler that changes neither term nor log. -/
theorem AdvancesCommit.frame {r : (raftSystem n C).Run} {j : ℕ} {s : Fin n}
    (h : AdvancesCommit r j s) :
    ((r.state (j + 1)).nodes s).currentTerm = ((r.state j).nodes s).currentTerm ∧
      ((r.state (j + 1)).nodes s).logs = ((r.state j).nodes s).logs := by
  obtain ⟨m, e, k, dst, reply, hact, hm, -, hlt⟩ := h
  obtain ⟨t, rf, msgs, events, heq, hmove⟩ := Cluster.step_move (r.taken j _ hact)
  rw [heq] at hlt ⊢
  by_cases hs : s = t
  · subst hs
    rw [Cluster.put_nodes_self] at hlt ⊢
    have hreplica := hmove.replica
    cases hreplica with
    | idle a s rf msgs events hframe hmatch hsilent =>
        rw [hframe.commitIndex] at hlt
        exact absurd hlt (lt_irrefl _)
    | reboot a s rf hepoch hstate hcommit happlied happliers happends hmatch =>
        rw [hcommit] at hlt
        exact absurd hlt (Nat.not_lt_zero _)
    | elect m s rf hframe hmatch =>
        rw [hframe.commitIndex] at hlt
        exact absurd hlt (lt_irrefl _)
    | accept m' src e' k' dst' args prev hm' hle hprev hprevTerm =>
        rw [hm] at hm'
        cases hm'
    | record m' src k' reply' call hm' hcall hsuccess =>
        obtain ⟨ni, mi, ci, ap, hshape⟩ :=
          (((r.state j).nodes s).callDone k' call).matched_shape call.server call.args
        rw [hshape]
        exact ⟨rfl, rfl⟩
  · rw [Cluster.put_nodes_of_ne _ hs] at hlt
    exact absurd hlt (lt_irrefl _)

/-- **Leader completeness.**  In every run of sound steps: when a leader of term
`T` advances its commit index to `i` or beyond by the counting loop while its log
holds the entry `e` at index `i`, then every server that is leader of a later
term, at whatever moment, has `e` at index `i`. -/
theorem leaderCompleteness (r : (raftSystem n C).Run) (hok : r.Meets Cluster.SoundCommit)
    (j : ℕ) (s : Fin n) (hadvance : AdvancesCommit r j s) (i : ℕ) (e : LogEntry C)
    (hi : i ≤ ((r.state (j + 1)).nodes s).commitIndex)
    (he : ((r.state j).nodes s).logs[i]? = some e) (k : ℕ) (t : Fin n)
    (hlead : ((r.state k).nodes t).state = .leader)
    (hterm : ((r.state j).nodes s).currentTerm < ((r.state k).nodes t).currentTerm) :
    ((r.state k).nodes t).logs[i]? = some e := by
  obtain ⟨g, hcommits, hgrows⟩ := exists_commits r hok
  obtain ⟨hframeTerm, hframeLogs⟩ := hadvance.frame
  have hsettled := (hcommits (j + 1)).rel.commit s
  rw [hframeTerm, hframeLogs] at hsettled
  obtain ⟨T, p, hT, hp, hlt, hpl⟩ := hsettled.mono List.prefix_rfl hi
  have hpe : p[i]? = some e := by
    have hget : (p.take (i + 1))[i]? = some (p.get ⟨i, hlt⟩) := by
      rw [List.getElem?_take_of_lt (Nat.lt_succ_self i), List.getElem?_eq_getElem hlt]
      rfl
    rw [getElem?_of_isPrefix hpl hget] at he
    rw [List.getElem?_eq_getElem hlt]
    exact he
  -- compare at a moment when both the commit and the later election have happened
  obtain ⟨-, hledger⟩ := ((hcommits k).tracks.refines.node t).leader hlead
  have hgrow := hgrows k (max (j + 1) k) (le_max_right _ _)
  obtain ⟨l', hl', -⟩ := hgrow.ledger _ _ hledger
  have hbase := chosen_base (hcommits (max (j + 1) k)).tracks.safe
    (hp.grows (hgrows (j + 1) (max (j + 1) k) (le_max_left _ _))) (hT.trans_lt hterm) hl'
  rw [hgrow.base _ _ hledger] at hbase
  exact getElem?_of_isPrefix
    (hbase.trans ((hcommits k).tracks.wf.base_isPrefix hledger)) hpe

/-- The entry that server `0` commits in term `1` is in the log of server `1`, leader
of term `2`. -/
theorem leaderCompleteness_handover :
    handover.Meets Cluster.SoundCommit ∧ AdvancesCommit handover 7 0 ∧
      ((handover.state 13).nodes 1).state = .leader ∧
      ((handover.state 13).nodes 1).logs[1]? = some ⟨7, 1⟩ := by
  have hok := handover_soundCommit
  have hadvance : AdvancesCommit handover 7 0 :=
    ⟨4, 0, 0, 1, { success := true }, by decide, by decide, by decide, by decide⟩
  have hlead : ((handover.state 13).nodes 1).state = .leader := by decide
  exact ⟨hok, hadvance, hlead, leaderCompleteness handover hok 7 0 hadvance 1 ⟨7, 1⟩
    (by decide) (by decide) 13 1 hlead (by decide)⟩

/-- Without the condition on commits, the leader of term `4` lacks an entry that the
leader of term `3` has committed by counting. -/
theorem leaderCompleteness_fails :
    ¬ ∀ (r : (raftSystem 3 ℕ).Run) (j : ℕ) (s : Fin 3), AdvancesCommit r j s →
      ∀ (i : ℕ) (e : LogEntry ℕ), i ≤ ((r.state (j + 1)).nodes s).commitIndex →
      ((r.state j).nodes s).logs[i]? = some e → ∀ (k : ℕ) (t : Fin 3),
      ((r.state k).nodes t).state = .leader →
      ((r.state j).nodes s).currentTerm < ((r.state k).nodes t).currentTerm →
      ((r.state k).nodes t).logs[i]? = some e := by
  intro h
  have hadvance : AdvancesCommit oldTermCommit 22 0 :=
    ⟨15, 0, 1, 1, { success := true }, by decide, by decide, by decide, by decide⟩
  have hentry := h oldTermCommit 22 0 hadvance 1 ⟨7, 1⟩ (by decide) (by decide)
    28 2 (by decide) (by decide)
  have hother : ((oldTermCommit.state 28).nodes 2).logs[1]? = some ⟨8, 2⟩ := by decide
  rw [hother] at hentry
  exact absurd hentry (by decide)

/-! ## What an accepted request commits -/

/-- A request that passes both tests of `AppendEntries` is accepted. -/
theorem Cluster.step_accept {c c' : Cluster n C} {m : ℕ} {src t : Fin n} {e j : ℕ}
    {args : AppendEntriesArgs n C} {prev : LogEntry C}
    (hm : c.net[m]? = some (.appendEntries src e j t args))
    (hterm : (c.nodes t).currentTerm ≤ args.term)
    (hprev : (c.nodes t).logs[args.prevLogIndex]? = some prev)
    (hprevTerm : prev.term = args.prevLogTerm) (hstep : c.step (.deliver m) = some c') :
    c'.nodes t = (c.nodes t).accepted args := by
  have hreceive : c.receive (.appendEntries src e j t args) = some c' := by
    simpa [Cluster.step, hm] using hstep
  obtain rfl : _ = c' := Option.some.inj hreceive
  rw [Raft.appendEntries_eq hterm hprev hprevTerm]
  exact Cluster.put_nodes_self ..

/-- The part of the ledger that a request stands for has all that its `LeaderCommit`
covers, and a merge leaves at least that part. -/
theorem Cluster.Commits.leaderCommit_lt {c : Cluster n C} {σ : State (Fin n) (LogEntry C)}
    (h : c.Commits σ) {src t : Fin n} {e j : ℕ} {args : AppendEntriesArgs n C}
    {prev : LogEntry C} (hm : .appendEntries src e j t args ∈ c.net)
    (hprev : (c.nodes t).logs[args.prevLogIndex]? = some prev)
    (hprevTerm : prev.term = args.prevLogTerm) :
    args.leaderCommit ≤ args.prevLogIndex + args.entries.length ∧
      args.leaderCommit < (Raft.mergeLogs (c.nodes t).logs args).length := by
  obtain ⟨l, hsent, T, p, -, -, hlt, hpl⟩ := h.rel.message hm
  have hcover : args.leaderCommit < l.length := by
    have := hpl.length_le
    rw [List.length_take] at this
    omega
  refine ⟨by rw [hsent.length] at hcover; omega, hcover.trans_le ?_⟩
  rcases h.tracks.refines.mergeLogs_cases h.tracks.wf hsent hprev hprevTerm with
    ⟨hpre, heq⟩ | ⟨-, heq⟩
  · rw [heq]
    exact hpre.length_le
  · rw [heq]

/-- **The last log index is never below `LeaderCommit`.**  In every run of sound
steps, when an append request passes the term test and the test of the previous
entry, then after the merge the follower's last index is at least `LeaderCommit`; the
follower's commit index becomes `LeaderCommit` if that is an advance, and this is
covered by the request. -/
theorem leaderCommit_le_lastIndex (r : (raftSystem n C).Run) (hok : r.Meets Cluster.SoundCommit)
    (k m : ℕ) (src t : Fin n) (e j : ℕ) (args : AppendEntriesArgs n C) (prev : LogEntry C)
    (hact : r.act k = some (.deliver m))
    (hm : (r.state k).net[m]? = some (.appendEntries src e j t args))
    (hterm : ((r.state k).nodes t).currentTerm ≤ args.term)
    (hprev : ((r.state k).nodes t).logs[args.prevLogIndex]? = some prev)
    (hprevTerm : prev.term = args.prevLogTerm) :
    args.leaderCommit ≤ ((r.state (k + 1)).nodes t).logs.length - 1 ∧
      ((r.state (k + 1)).nodes t).commitIndex
        = max ((r.state k).nodes t).commitIndex args.leaderCommit ∧
      args.leaderCommit ≤ args.prevLogIndex + args.entries.length := by
  obtain ⟨g, hcommits, -⟩ := exists_commits r hok
  obtain ⟨hcover, hlt⟩ :=
    (hcommits k).leaderCommit_lt (List.mem_of_getElem? hm) hprev hprevTerm
  obtain ⟨-, -, -, -, -, hlogs⟩ := Raft.accepted_core ((r.state k).nodes t) args
  rw [Cluster.step_accept hm hterm hprev hprevTerm (r.taken k _ hact), hlogs,
    Raft.accepted_commitIndex]
  refine ⟨by omega, ?_, hcover⟩
  split_ifs with hadvance
  · rw [max_eq_right hadvance.le]
    exact min_eq_left (by omega)
  · exact (max_eq_left (not_lt.mp hadvance)).symm

/-- Server `0` of term `1` commits an entry that server `1` has stored and tells server
`2` in the request that brings it the entry. -/
def followedCommit : (raftSystem 3 ℕ).Run :=
  (raftSystem 3 ℕ).ofList
    [.electionTimeout 0, .deliver 0, .deliver 2, .startRead 0 7, .startAppend 0 0,
      .sendHeartbeat 0 0, .deliver 3, .deliver 4, .sendHeartbeat 0 0, .deliver 5]

/-- Server `2` of `followedCommit` accepts a request with `LeaderCommit` `1` and has an
entry at index `1` afterwards. -/
theorem leaderCommit_le_lastIndex_followedCommit :
    followedCommit.Meets Cluster.SoundCommit ∧
      1 ≤ ((followedCommit.state 10).nodes 2).logs.length - 1 ∧
      ((followedCommit.state 10).nodes 2).commitIndex = 1 := by
  have hok : followedCommit.Meets Cluster.SoundCommit :=
    TransitionSystem.meets_ofList (by decide)
  obtain ⟨hlast, hcommit, -⟩ := leaderCommit_le_lastIndex followedCommit hok 9 5 0 2 0 1
    ⟨1, 0, 0, 0, [⟨7, 1⟩], 1⟩ default (by decide) (by decide) (by decide)
    (by decide) rfl
  have hbefore : ((followedCommit.state 9).nodes 2).commitIndex = 0 := by decide
  rw [hbefore] at hcommit
  exact ⟨hok, hlast, hcommit⟩

/-- Server `0` appends two entries in term `1`, commits both by counting in term `3`,
loses them to server `2`, leader of term `4`, which leaves it with one entry, and is
leader of term `5` with commit index `2` and last index `1`. -/
def cutCommit : (raftSystem 3 ℕ).Run :=
  (raftSystem 3 ℕ).ofList
    [.electionTimeout 0, .deliver 0, .deliver 2, .startRead 0 7, .startAppend 0 0,
      .startRead 0 6, .startAppend 0 0, .electionTimeout 2, .electionTimeout 2, .deliver 6,
      .deliver 7, .startRead 2 8, .startAppend 2 0, .deliver 5, .electionTimeout 0, .deliver 9,
      .deliver 11, .sendHeartbeat 0 0, .deliver 12, .deliver 13, .sendHeartbeat 0 1, .deliver 14,
      .startRead 0 9, .startAppend 0 0, .deliver 15, .deliver 10, .electionTimeout 2, .deliver 18,
      .deliver 19, .sendHeartbeat 2 0, .deliver 20, .deliver 21, .sendHeartbeat 2 1, .deliver 22,
      .electionTimeout 0, .deliver 24, .deliver 26, .sendHeartbeat 0 0, .deliver 27]

/-- Without the condition on commits, server `2` accepts a request with `LeaderCommit`
`2` while the last index of its log is `1`. -/
theorem leaderCommit_le_lastIndex_fails :
    ¬ ∀ (r : (raftSystem 3 ℕ).Run) (k m : ℕ) (src t : Fin 3) (e j : ℕ)
      (args : AppendEntriesArgs 3 ℕ) (prev : LogEntry ℕ), r.act k = some (.deliver m) →
      (r.state k).net[m]? = some (.appendEntries src e j t args) →
      ((r.state k).nodes t).currentTerm ≤ args.term →
      ((r.state k).nodes t).logs[args.prevLogIndex]? = some prev →
      prev.term = args.prevLogTerm →
      args.leaderCommit ≤ ((r.state (k + 1)).nodes t).logs.length - 1 ∧
        ((r.state (k + 1)).nodes t).commitIndex
          = max ((r.state k).nodes t).commitIndex args.leaderCommit ∧
        args.leaderCommit ≤ args.prevLogIndex + args.entries.length := by
  intro h
  have hle := (h cutCommit 38 27 0 2 0 2 ⟨5, 0, 1, 2, [], 2⟩ ⟨8, 2⟩ (by decide +kernel)
    (by decide +kernel) (by decide +kernel) (by decide +kernel) rfl).1
  have hlen : ((cutCommit.state (38 + 1)).nodes 2).logs.length = 2 := by decide +kernel
  rw [hlen] at hle
  exact absurd hle (by decide)

end Runs

end Mit6824
