/-
# Replication under a single elector

Runs in which only one server `L` ever has its election timer expire, in
whatever role, with any loss, delay, reordering and duplication of messages and
any crashes.  Terms may be raised without an election and old rounds may elect;
none of it matters for the logs: no other server ever leads, so every request in
flight is a prefix of the log of `L`, and every log only grows along that log
(`SingleInv.logs`).  What `L` has recorded as matched is then really stored, and
so is everything that is committed or applied (`singleElector`).
-/
import Mit6824.RaftLog
import Mit6824.RaftReplica

namespace Mit6824

namespace Raft

variable {n : ℕ} {C : Type} {me : Fin n}

/-- Two prefixes of one log agree. -/
theorem agree_of_isPrefix {l₁ l₂ l : List (LogEntry C)} (h₁ : l₁ <+: l) (h₂ : l₂ <+: l) :
    Agree l₁ l₂ := by
  intro i e e' he he' _
  obtain ⟨hi, -⟩ := List.getElem?_eq_some_iff.mp he
  obtain ⟨hi', -⟩ := List.getElem?_eq_some_iff.mp he'
  have hlen : (l₁.take (i + 1)).length = (l₂.take (i + 1)).length := by
    rw [List.length_take, List.length_take]
    omega
  exact (List.prefix_of_prefix_length_le ((List.take_prefix _ _).trans h₁)
    ((List.take_prefix _ _).trans h₂) hlen.le).eq_of_length hlen

/-- A follower that observes a term is a follower. -/
theorem observeTerm_follower {rf : Raft C me} (h : rf.state = .follower) (t : ℕ) :
    (rf.observeTerm t).state = .follower := by
  by_cases ht : rf.currentTerm < t
  · exact observeTerm_state_of_lt ht
  · rw [observeTerm_of_le (not_lt.mp ht)]
    exact h

end Raft

namespace Cluster

variable {n : ℕ} {C : Type} {c c' : Cluster n C} {a : Action n C} {L s : Fin n}
  {rf : Raft C s} {msgs : List (Msg n C)} {events : List (Event n C)}

/-- Only the election timer of `L` expires. -/
def OnlyTimer (L : Fin n) (_ : Cluster n C) : Action n C → Prop :=
  TimesOut (· = L)

instance (L : Fin n) (c : Cluster n C) (a : Action n C) : Decidable (OnlyTimer L c a) :=
  inferInstanceAs (Decidable (TimesOut _ a))

/-! ## The invariant -/

/-- The request stands for the prefix `m` of the log `l`. -/
def PartOf (l : List (LogEntry C)) (args : AppendEntriesArgs n C) (m : List (LogEntry C)) : Prop :=
  m <+: l ∧ (∃ prev, m[args.prevLogIndex]? = some prev ∧ prev.term = args.prevLogTerm) ∧
    m.drop (args.prevLogIndex + 1) = args.entries

/-- The length of that prefix is what the leader will record. -/
theorem PartOf.length {l m : List (LogEntry C)} {args : AppendEntriesArgs n C}
    (h : PartOf l args m) : m.length = args.prevLogIndex + args.entries.length + 1 := by
  obtain ⟨-, ⟨prev, hprev, -⟩, hentries⟩ := h
  obtain ⟨hlt, -⟩ := List.getElem?_eq_some_iff.mp hprev
  rw [← hentries, List.length_drop]
  omega

/-- The logs of a majority reach beyond index `i`. -/
def HeldByMajority (c : Cluster n C) (i : ℕ) : Prop :=
  ∃ Q : Finset (Fin n), IsMajority Q ∧ ∀ q ∈ Q, i < (c.nodes q).logs.length

/-- The logs of all servers have grown. -/
def LogsGrow (c c' : Cluster n C) : Prop :=
  ∀ s, (c.nodes s).logs <+: (c'.nodes s).logs

theorem HeldByMajority.grows {i : ℕ} (h : HeldByMajority c i) (hg : LogsGrow c c') :
    HeldByMajority c' i := by
  obtain ⟨Q, hQ, hlen⟩ := h
  exact ⟨Q, hQ, fun q hq => (hlen q hq).trans_le (hg q).length_le⟩

theorem HeldByMajority.mono {i j : ℕ} (h : HeldByMajority c i) (hj : j ≤ i) :
    HeldByMajority c j := by
  obtain ⟨Q, hQ, hlen⟩ := h
  exact ⟨Q, hQ, fun q hq => hj.trans_lt (hlen q hq)⟩

/-- What holds while only `L` runs elections. -/
structure SingleInv (L : Fin n) (c : Cluster n C) : Prop where
  /-- The others are followers, and nobody has called `Start` on them. -/
  follower : ∀ s, s ≠ L → (c.nodes s).state = .follower ∧ (c.nodes s).starts = []
  shared : ∀ s, (c.nodes s).logs <+: (c.nodes L).logs
  pos : ∀ s, 0 < (c.nodes s).logs.length
  matched : ∀ s p, (c.nodes s).matchIndex p < (c.nodes p).logs.length
  message : ∀ {src e k dst args}, .appendEntries src e k dst args ∈ c.net →
    (∃ m, PartOf (c.nodes L).logs args m) ∧ c.HeldByMajority args.leaderCommit
  reply : ∀ {src e k dst reply}, .appendEntriesReply src e k dst reply ∈ c.net →
    reply.success = true → ∃ args, .appendEntries src e k dst args ∈ c.net ∧
      args.prevLogIndex + args.entries.length < (c.nodes dst).logs.length
  commit : ∀ s, c.HeldByMajority (c.nodes s).commitIndex
  applier : ∀ {s g}, g ∈ (c.nodes s).appliers → ∀ (i : ℕ) e, g.entries[i]? = some e →
    (c.nodes L).logs[g.startIdx + i]? = some e
  applied : ∀ {s e msg}, .applied s e msg ∈ c.history →
    ∃ entry, (c.nodes L).logs[msg.commandIndex]? = some entry ∧ entry.command = msg.command

theorem singleInv_init [Inhabited C] (L : Fin n) : SingleInv L (Cluster.init n C) where
  follower := fun _ _ => ⟨rfl, rfl⟩
  shared := fun _ => List.prefix_rfl
  pos := fun _ => Nat.zero_lt_one
  matched := fun _ _ => Nat.zero_lt_one
  message := by intro src e k dst args h; simp [init] at h
  reply := by intro src e k dst reply h; simp [init] at h
  commit := by
    intro s
    refine ⟨Finset.univ, ?_, fun _ _ => Nat.zero_lt_one⟩
    have hpos : 0 < n := Fin.pos s
    unfold IsMajority
    rw [Finset.card_univ, Fintype.card_fin]
    omega
  applier := by intro s g h; simp [init, Raft.make, Raft.readPersist] at h
  applied := by intro s e msg h; simp [init] at h

/-! ## Logs only grow along the log of `L` -/

/-- An accepted request extends the log, and not beyond the log of `L`. -/
theorem SingleInv.mergeLogs (hi : SingleInv L c) {args : AppendEntriesArgs n C}
    {m : List (LogEntry C)} {prev : LogEntry C} (hpart : PartOf (c.nodes L).logs args m)
    (hprev : (c.nodes s).logs[args.prevLogIndex]? = some prev)
    (hprevTerm : prev.term = args.prevLogTerm) :
    (c.nodes s).logs <+: Raft.mergeLogs (c.nodes s).logs args ∧
      m <+: Raft.mergeLogs (c.nodes s).logs args ∧
      Raft.mergeLogs (c.nodes s).logs args <+: (c.nodes L).logs := by
  obtain ⟨hm, ⟨prev', hprev', hprevTerm'⟩, hentries⟩ := hpart
  have hmatch : Raft.Matches (c.nodes s).logs args.prevLogIndex prev' := by
    show ((c.nodes s).logs[args.prevLogIndex]?).map LogEntry.term = some prev'.term
    rw [hprev, hprevTerm', ← hprevTerm]
    rfl
  rcases Raft.mergeLogs_cases (Raft.agree_of_isPrefix (hi.shared s) hm) hprev' hmatch hentries with
    ⟨hpre, heq⟩ | ⟨hnot, heq⟩
  · rw [heq]
    exact ⟨List.prefix_rfl, hpre, hi.shared s⟩
  · rw [heq]
    exact ⟨(List.prefix_or_prefix_of_prefix (hi.shared s) hm).resolve_right hnot,
      List.prefix_rfl, hm⟩

/-- **A move extends the log of its server, for the others along the log of `L`.** -/
theorem SingleInv.logs (hi : SingleInv L c) (hcore : CoreMove c a s rf msgs events) :
    (c.nodes s).logs <+: rf.logs ∧ (s ≠ L → rf.logs <+: (c.nodes L).logs) := by
  rcases hcore.logs_cases with hlogs |
    ⟨src, e, k, args, prev, hm, -, hprev, hprevTerm, -, hlogs⟩ | ⟨k, p, -, hp, -, hlogs⟩
  · rw [hlogs]
    exact ⟨List.prefix_rfl, fun _ => hi.shared s⟩
  · obtain ⟨⟨p, hpart⟩, -⟩ := hi.message hm
    obtain ⟨h1, -, h3⟩ := hi.mergeLogs hpart hprev hprevTerm
    rw [hlogs]
    exact ⟨h1, fun _ => h3⟩
  · rw [hlogs]
    refine ⟨List.prefix_append _ _, fun hs => ?_⟩
    rw [(hi.follower s hs).2] at hp
    simp at hp

/-- All logs grow by a move. -/
theorem SingleInv.put_grows (hi : SingleInv L c) (hcore : CoreMove c a s rf msgs events) :
    LogsGrow c (c.put s rf msgs events) :=
  (forall_put (P := fun t node => (c.nodes t).logs <+: node.logs)).mpr
    ⟨(hi.logs hcore).1, fun _ _ => List.prefix_rfl⟩

/-- All logs stay prefixes of the log of `L`. -/
theorem SingleInv.put_shared (hi : SingleInv L c) (hcore : CoreMove c a s rf msgs events)
    (t : Fin n) : ((c.put s rf msgs events).nodes t).logs
      <+: ((c.put s rf msgs events).nodes L).logs := by
  have hgrow := hi.put_grows hcore L
  by_cases ht : t = s
  · subst ht
    by_cases hL : t = L
    · subst hL
      exact List.prefix_rfl
    · rw [put_nodes_self]
      exact ((hi.logs hcore).2 hL).trans hgrow
  · rw [put_nodes_of_ne c ht]
    exact (hi.shared t).trans hgrow

/-! ## Every move keeps the invariant -/

/-- A server without elections stays a follower with nothing to append. -/
theorem SingleInv.put_follower [Inhabited C] (hi : SingleInv L c)
    (hmove : Move c a s rf msgs events) (hok : OnlyTimer L c a) (hs : s ≠ L) :
    rf.state = .follower ∧ rf.starts = [] := by
  obtain ⟨hstate, hstarts⟩ := hi.follower s hs
  have hrestart : ∀ rf : Raft C s, rf.restart.state = .follower ∧ rf.restart.starts = [] := by
    intro rf
    refine ⟨Raft.restart_state rf, ?_⟩
    unfold Raft.restart Raft.make Raft.readPersist
    rcases rf.persister with _ | d
    · rfl
    · rfl
  have hobserve : ∀ (rf : Raft C s) (t : ℕ), rf.state = .follower → rf.starts = [] →
      (rf.observeTerm t).persist.state = .follower ∧ (rf.observeTerm t).persist.starts = [] := by
    intro rf t hst hsts
    rw [Raft.persist_state, Raft.persist_starts, Raft.observeTerm_starts]
    exact ⟨Raft.observeTerm_follower hst t, hsts⟩
  cases hmove with
  | crash => exact hrestart _
  | handlerPanic => exact hrestart _
  | campaignPanic => exact hrestart _
  | campaign => exact absurd (hok _ rfl) hs
  | heartbeat =>
      obtain ⟨hb, heq⟩ := (c.nodes s).heartbeatTimeout_shape
      rw [heq]
      exact ⟨hstate, hstarts⟩
  | heartbeatSkip => exact ⟨hstate, hstarts⟩
  | heartbeatSend => exact ⟨hstate, hstarts⟩
  | voteRefuse => exact ⟨hstate, hstarts⟩
  | voteBehind => exact hobserve _ _ hstate hstarts
  | voteGrant m src e k dst args => exact hobserve _ args.term hstate hstarts
  | voteCount => exact ⟨hstate, hstarts⟩
  | voteElect m src k dst reply round hm hround hwait hgranted hcand =>
      rw [hstate] at hcand
      cases hcand
  | voteOther m src k dst reply round hm hround rf hrf =>
      rcases hrf with rfl | ⟨-, rfl⟩
      · exact ⟨hstate, hstarts⟩
      · exact hobserve _ _ hstate hstarts
  | appendStale => exact ⟨hstate, hstarts⟩
  | appendReject => exact hobserve _ _ hstate hstarts
  | appendAccept m src e k dst args =>
      unfold Raft.accepted
      obtain ⟨ci, ap, heq⟩ := Raft.followed_shape
        { (c.nodes s).observeTerm args.term with logs := Raft.mergeLogs (c.nodes s).logs args }
        args.leaderCommit
      rw [heq]
      exact hobserve _ args.term hstate hstarts
  | replyMatch m src k reply call =>
      obtain ⟨ni, mi, ci, ap, heq⟩ :=
        ((c.nodes s).callDone k call).matched_shape call.server call.args
      rw [heq]
      exact ⟨hstate, hstarts⟩
  | replyHigher => exact hobserve _ _ hstate hstarts
  | replyBackoff => exact ⟨hstate, hstarts⟩
  | startRead s command =>
      -- `GetState` says that a follower is not the leader
      have heq : (c.nodes s).startRead command = c.nodes s := by
        unfold Raft.startRead Raft.getState
        rw [hstate]
        rfl
      rw [heq]
      exact ⟨hstate, hstarts⟩
  | startAppend s k p hp =>
      rw [hstarts] at hp
      simp at hp
  | applySend => exact ⟨hstate, hstarts⟩
  | applyStore => exact ⟨hstate, hstarts⟩

/-- What the server that moves has recorded is stored. -/
theorem SingleInv.put_matched (hi : SingleInv L c) (hcalls : CallInv c)
    (h : ReplicaMove c a s rf msgs events) (hgrow : LogsGrow c (c.put s rf msgs events))
    (p : Fin n) : rf.matchIndex p < ((c.put s rf msgs events).nodes p).logs.length := by
  have hkeep : ∀ {i : ℕ}, i < (c.nodes p).logs.length →
      i < ((c.put s rf msgs events).nodes p).logs.length :=
    fun hlt => hlt.trans_le (hgrow p).length_le
  cases h with
  | idle a s rf msgs events hframe hmatch hsilent => exact hmatch ▸ hkeep (hi.matched s p)
  | reboot a s rf hepoch hstate hcommit happlied happliers happends hmatch =>
      rw [hmatch]
      exact hkeep (hi.pos p)
  | elect m s rf hframe hmatch =>
      rw [hmatch]
      exact hkeep (hi.pos p)
  | send s k server i prev hstate hprev => exact hkeep (hi.matched s p)
  | accept m src e k dst args prev hm hle hprev hprevTerm =>
      rw [((c.nodes s).accepted_replica args).1]
      exact hkeep (hi.matched s p)
  | record m src k reply call hm hcall hsuccess =>
      rw [(((c.nodes s).callDone k call).matched_replica call.server call.args).1]
      show Function.update (c.nodes s).matchIndex call.server _ p < _
      by_cases hp : p = call.server
      · -- the reply answers the request of this call, which the follower has stored
        subst hp
        obtain ⟨args, hargs, hlt⟩ := hi.reply (List.mem_of_getElem? hm) hsuccess
        obtain ⟨-, rfl⟩ := hcalls.unique hargs (hcalls.call hcall)
        rw [Function.update_self]
        exact hkeep hlt
      · rw [Function.update_of_ne hp]
        exact hkeep (hi.matched s p)
  | append s k q hq =>
      show Function.update (c.nodes s).matchIndex s (c.nodes s).logs.length p < _
      by_cases hp : p = s
      · subst hp
        rw [Function.update_self, put_nodes_self]
        show _ < ((c.nodes p).logs ++ [_]).length
        rw [List.length_append]
        exact Nat.lt_succ_self _
      · rw [Function.update_of_ne hp]
        exact hkeep (hi.matched s p)
  | applySend s k g msg hg hmsg => exact hkeep (hi.matched s p)
  | applyStore s k g hg hsent => exact hkeep (hi.matched s p)

/-- What is counted on a majority is held by one. -/
theorem heldByMajority_of_count {i : ℕ} (hcount : n / 2 < rf.matchCount i)
    (hmatched : ∀ p, rf.matchIndex p < (c.nodes p).logs.length) : c.HeldByMajority i := by
  refine ⟨Finset.univ.filter fun p => decide (i ≤ rf.matchIndex p) = true, ?_, ?_⟩
  · apply isMajority_of_half_lt
    rw [← countP_finRange_eq_card]
    exact hcount
  · intro q hq
    have hle : i ≤ rf.matchIndex q := by simpa using hq
    exact hle.trans_lt (hmatched q)

/-- The commit index of the server that moves is held by a majority. -/
theorem SingleInv.put_commit (hi : SingleInv L c) (hcalls : CallInv c)
    (h : ReplicaMove c a s rf msgs events) (hgrow : LogsGrow c (c.put s rf msgs events)) :
    (c.put s rf msgs events).HeldByMajority rf.commitIndex := by
  have hold := (hi.commit s).grows hgrow
  have hmatched := hi.put_matched hcalls h hgrow
  cases h with
  | idle a s rf msgs events hframe hmatch hsilent => exact hframe.commitIndex ▸ hold
  | reboot a s rf hepoch hstate hcommit happlied happliers happends hmatch =>
      exact hold.mono (by omega)
  | elect m s rf hframe hmatch => exact hframe.commitIndex ▸ hold
  | send s k server i prev hstate hprev => exact hold
  | accept m src e k dst args prev hm hle hprev hprevTerm =>
      rcases (c.nodes s).accepted_commit args with ⟨heq, -⟩ | ⟨i, hmin, -, heq, -⟩
      · exact heq ▸ hold
      · rw [heq]
        exact ((hi.message (List.mem_of_getElem? hm)).2.grows hgrow).mono (by omega)
  | record m src k reply call hm hcall hsuccess =>
      rcases ((c.nodes s).callDone k call).matched_commit call.server call.args with
        ⟨heq, -⟩ | ⟨i, hscan, heq, -⟩
      · exact heq ▸ hold
      · rw [heq]
        refine heldByMajority_of_count ?_ hmatched
        unfold Raft.matchCount
        rw [(((c.nodes s).callDone k call).matched_replica call.server call.args).1]
        exact (Raft.commitScan_some hscan).2.2
  | append s k p hp => exact hold
  | applySend s k g msg hg hmsg => exact hold
  | applyStore s k g hg hsent => exact hold

/-- Requests in flight stay prefixes of the log of `L`: only `L` sends them. -/
theorem SingleInv.put_message (hi : SingleInv L c) (h : ReplicaMove c a s rf msgs events)
    (hgrow : LogsGrow c (c.put s rf msgs events)) {src dst : Fin n} {e k : ℕ}
    {args : AppendEntriesArgs n C}
    (hm : .appendEntries src e k dst args ∈ (c.put s rf msgs events).net) :
    (∃ m, PartOf ((c.put s rf msgs events).nodes L).logs args m) ∧
      (c.put s rf msgs events).HeldByMajority args.leaderCommit := by
  have hkeep : (∃ m, PartOf (c.nodes L).logs args m) → c.HeldByMajority args.leaderCommit →
      (∃ m, PartOf ((c.put s rf msgs events).nodes L).logs args m) ∧
        (c.put s rf msgs events).HeldByMajority args.leaderCommit := by
    rintro ⟨m, hpre, hprev, hentries⟩ hheld
    exact ⟨⟨m, hpre.trans (hgrow L), hprev, hentries⟩, hheld.grows hgrow⟩
  rcases List.mem_append.mp hm with hold | hnew
  · exact hkeep (hi.message hold).1 (hi.message hold).2
  · cases h with
    | idle a s rf msgs events hframe hmatch hsilent => exact absurd hnew hsilent.append
    | send s k' server i prev hstate hprev =>
        simp only [List.mem_singleton, Msg.appendEntries.injEq] at hnew
        obtain ⟨-, -, -, -, rfl⟩ := hnew
        have hs : s = L := by
          by_contra hne
          rw [(hi.follower s hne).1] at hstate
          cases hstate
        subst hs
        exact hkeep ⟨(c.nodes s).logs, List.prefix_rfl, ⟨prev, hprev, rfl⟩, rfl⟩ (hi.commit s)
    | _ => simp at hnew

/-- A successful reply answers a request that the replier has stored. -/
theorem SingleInv.put_reply (hi : SingleInv L c) (h : ReplicaMove c a s rf msgs events)
    (hgrow : LogsGrow c (c.put s rf msgs events)) {src dst : Fin n} {e k : ℕ}
    {reply : AppendEntriesReply}
    (hm : .appendEntriesReply src e k dst reply ∈ (c.put s rf msgs events).net)
    (hsuccess : reply.success = true) :
    ∃ args, .appendEntries src e k dst args ∈ (c.put s rf msgs events).net ∧
      args.prevLogIndex + args.entries.length
        < ((c.put s rf msgs events).nodes dst).logs.length := by
  rcases List.mem_append.mp hm with hold | hnew
  · obtain ⟨args, hargs, hlt⟩ := hi.reply hold hsuccess
    exact ⟨args, List.mem_append_left _ hargs, hlt.trans_le (hgrow dst).length_le⟩
  · cases h with
    | idle a s rf msgs events hframe hmatch hsilent =>
        rw [hsilent.reply hnew] at hsuccess
        cases hsuccess
    | accept m src' e' k' dst' args prev hm' hle hprev hprevTerm =>
        simp only [List.mem_singleton, Msg.appendEntriesReply.injEq] at hnew
        obtain ⟨rfl, rfl, rfl, rfl, -⟩ := hnew
        have hreq := List.mem_of_getElem? hm'
        refine ⟨args, List.mem_append_left _ hreq, ?_⟩
        obtain ⟨⟨p, hpart⟩, -⟩ := hi.message hreq
        obtain ⟨-, hmerged, -⟩ := hi.mergeLogs hpart hprev hprevTerm
        obtain ⟨-, -, -, -, -, hlogs⟩ := Raft.accepted_core (c.nodes dst) args
        rw [put_nodes_self, hlogs]
        have := hmerged.length_le
        rw [hpart.length] at this
        omega
    | _ => simp at hnew

/-- A slice of a log is found in every log that extends it. -/
theorem getElem?_slice {l l' : List (LogEntry C)} {i start j : ℕ} {e : LogEntry C}
    (hpre : l <+: l') (he : ((l.take i).drop start)[j]? = some e) : l'[start + j]? = some e := by
  rw [List.getElem?_drop] at he
  exact getElem?_of_isPrefix ((List.take_prefix _ _).trans hpre) he

/-- The apply goroutines of the server that moves hold entries of the log of `L`. -/
theorem SingleInv.put_applier (hi : SingleInv L c) (h : ReplicaMove c a s rf msgs events)
    (hgrow : LogsGrow c (c.put s rf msgs events))
    (hshared : rf.logs <+: ((c.put s rf msgs events).nodes L).logs) {g : Applier C}
    (hmem : g ∈ rf.appliers) (i : ℕ) (e : LogEntry C) (he : g.entries[i]? = some e) :
    ((c.put s rf msgs events).nodes L).logs[g.startIdx + i]? = some e := by
  rcases h.mem_appliers hmem with ⟨g', hg', hstart, hentries⟩ | ⟨last, hstart, hentries⟩
  · rw [hentries] at he
    rw [hstart]
    exact getElem?_of_isPrefix (hgrow L) (hi.applier hg' i e he)
  · rw [hentries] at he
    rw [hstart]
    exact getElem?_slice hshared he

/-- What has been sent on an apply channel is in the log of `L`. -/
theorem SingleInv.put_applied (hi : SingleInv L c) (h : ReplicaMove c a s rf msgs events)
    (hgrow : LogsGrow c (c.put s rf msgs events)) {t : Fin n} {e : ℕ} {msg : ApplyMsg C}
    (hmem : .applied t e msg ∈ (c.put s rf msgs events).history) :
    ∃ entry, ((c.put s rf msgs events).nodes L).logs[msg.commandIndex]? = some entry ∧
      entry.command = msg.command := by
  rcases List.mem_append.mp hmem with hold | hnew
  · obtain ⟨entry, hentry, hcommand⟩ := hi.applied hold
    exact ⟨entry, getElem?_of_isPrefix (hgrow L) hentry, hcommand⟩
  · obtain ⟨g, hg, i, entry, hentry, hcommand, hindex⟩ := h.mem_applied hnew
    refine ⟨entry, ?_, hcommand⟩
    rw [hindex]
    exact getElem?_of_isPrefix (hgrow L) (hi.applier hg i entry hentry)

/-- **Every move keeps the invariant.** -/
theorem SingleInv.put [Inhabited C] (hi : SingleInv L c) (hcalls : CallInv c)
    (hsynced : (c.nodes s).Synced) (hmove : Move c a s rf msgs events) (hok : OnlyTimer L c a) :
    SingleInv L (c.put s rf msgs events) := by
  have hcore := hmove.core hsynced
  have hreplica := hmove.replica
  have hgrow := hi.put_grows hcore
  exact {
    follower := (forall_put (P := fun t node => t ≠ L → node.state = .follower ∧
      node.starts = [])).mpr ⟨hi.put_follower hmove hok, fun t _ => hi.follower t⟩
    shared := hi.put_shared hcore
    pos := fun t => (hi.pos t).trans_le (hgrow t).length_le
    matched := (forall_put (P := fun _ node => ∀ p, node.matchIndex p
      < ((c.put s rf msgs events).nodes p).logs.length)).mpr
        ⟨hi.put_matched hcalls hreplica hgrow,
          fun t _ p => (hi.matched t p).trans_le (hgrow p).length_le⟩
    message := hi.put_message hreplica hgrow
    reply := hi.put_reply hreplica hgrow
    commit := (forall_put (P := fun _ node =>
      (c.put s rf msgs events).HeldByMajority node.commitIndex)).mpr
        ⟨hi.put_commit hcalls hreplica hgrow, fun t _ => (hi.commit t).grows hgrow⟩
    applier := by
      intro t g hmem i e he
      by_cases ht : t = s
      · subst ht
        have hshared := hi.put_shared hcore t
        rw [put_nodes_self] at hmem hshared
        exact hi.put_applier hreplica hgrow hshared hmem i e he
      · rw [put_nodes_of_ne c ht] at hmem
        exact getElem?_of_isPrefix (hgrow L) (hi.applier hmem i e he)
    applied := hi.put_applied hreplica hgrow }

end Cluster

/-! ## Runs with a single elector -/

section Runs

variable {n : ℕ} {C : Type} [Inhabited C]

/-- All invariants of such a run together. -/
structure Cluster.SingleRun (L : Fin n) (c : Cluster n C) : Prop where
  votes : c.VoteInv
  calls : c.CallInv
  single : c.SingleInv L

/-- A step of such a run keeps the invariants and only extends logs. -/
theorem Cluster.SingleRun.step {L : Fin n} {c c' : Cluster n C} {a : Action n C}
    (h : c.SingleRun L) (hok : c.OnlyTimer L a) (hstep : c.step a = some c') :
    c'.SingleRun L ∧ c.LogsGrow c' := by
  have hvotes := h.votes.step hstep
  obtain ⟨s, rf, msgs, events, rfl, hmove⟩ := step_move hstep
  exact ⟨⟨hvotes, h.calls.put hmove.replica,
    h.single.put h.calls (h.votes.synced s) hmove hok⟩,
    h.single.put_grows (hmove.core (h.votes.synced s))⟩

theorem singleRun_run (r : (raftSystem n C).Run) {L : Fin n}
    (hok : r.Meets (Cluster.OnlyTimer L)) (k : ℕ) : (r.state k).SingleRun L :=
  r.invariant hok
    ⟨Cluster.voteInv_init, Cluster.callInv_init, Cluster.singleInv_init L⟩
    (fun _ _ _ h hone hstep => (h.step hone hstep).1) k

/-- **Replication is safe under a single elector.**  In every run in which only the
election timer of `L` expires: every log is a prefix of the log of `L`; the log
of `L` is only ever extended; what a server regards as committed is stored in
the logs of more than half of the servers as the log of `L` has it; and every
command sent on an apply channel is the one that the log of `L` has at its
index. -/
theorem singleElector (r : (raftSystem n C).Run) (L : Fin n)
    (hok : r.Meets (Cluster.OnlyTimer L)) :
    (∀ k s, ((r.state k).nodes s).logs <+: ((r.state k).nodes L).logs) ∧
    (∀ j k, j ≤ k → ((r.state j).nodes L).logs <+: ((r.state k).nodes L).logs) ∧
    (∀ k s, ∃ Q : Finset (Fin n), n < 2 * Q.card ∧ ∀ q ∈ Q, ∀ i, 1 ≤ i →
      i ≤ ((r.state k).nodes s).commitIndex → ∃ e,
        ((r.state k).nodes L).logs[i]? = some e ∧ ((r.state k).nodes q).logs[i]? = some e) ∧
    (∀ k s e msg, .applied s e msg ∈ (r.state k).history → ∃ entry,
      ((r.state k).nodes L).logs[msg.commandIndex]? = some entry ∧
        entry.command = msg.command) := by
  have hrun := singleRun_run r hok
  refine ⟨fun k s => (hrun k).single.shared s, fun j k hjk => ?_, fun k s => ?_,
    fun k s e msg h => (hrun k).single.applied h⟩
  · refine r.rel_of_le hok (R := Cluster.LogsGrow) (fun _ _ => List.prefix_rfl)
      (fun _ _ _ h h' s => (h s).trans (h' s)) ?_ hjk L
    intro i a _ hone hstep
    exact ((hrun i).step hone hstep).2
  · obtain ⟨Q, hQ, hlen⟩ := (hrun k).single.commit s
    refine ⟨Q, ?_, fun q hq i _ hi => ?_⟩
    · have hcard := hQ
      unfold IsMajority at hcard
      rwa [Fintype.card_fin] at hcard
    · have hlt := hi.trans_lt (hlen q hq)
      have hq := List.getElem?_eq_getElem hlt
      exact ⟨_, getElem?_of_isPrefix ((hrun k).single.shared q) hq, hq⟩

/-- Server `0` wins term `1`, replicates a command to server `1` and applies it,
crashes, campaigns again, wins term `2` and replicates a second command, while
an old request reaches server `1` once more. -/
def loneElector : (raftSystem 3 ℕ).Run :=
  (raftSystem 3 ℕ).ofList
    [.electionTimeout 0, .deliver 0, .deliver 2, .startRead 0 7, .startAppend 0 0,
      .sendHeartbeat 0 0, .deliver 3, .deliver 4, .applySend 0 0, .crash 0,
      .electionTimeout 0, .deliver 5, .deliver 7, .startRead 0 8, .startAppend 0 0,
      .sendHeartbeat 0 0, .deliver 8, .deliver 3, .deliver 9, .applySend 0 0]

/-- In that run the log of server `1` stays a prefix of the log of server `0`, also
when the old request is delivered again. -/
theorem singleElector_loneElector :
    loneElector.Meets (Cluster.OnlyTimer 0) ∧
      .applied 0 1 ⟨true, 7, 1⟩ ∈ (loneElector.state 20).history ∧
      ((loneElector.state 20).nodes 0).commitIndex = 2 ∧
      ∀ k s, ((loneElector.state k).nodes s).logs <+: ((loneElector.state k).nodes 0).logs := by
  have hok : loneElector.Meets (Cluster.OnlyTimer 0) :=
    TransitionSystem.meets_ofList (by decide)
  exact ⟨hok, by decide, by decide, (singleElector loneElector 0 hok).1⟩

end Runs

end Mit6824
