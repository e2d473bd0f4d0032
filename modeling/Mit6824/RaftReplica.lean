/-
# What a move does to the replication bookkeeping

A second view of the moves, beside the one that elections need: what becomes of
`matchIndex`, `commitIndex`, `lastApplied`, the apply goroutines and the append
calls of the server that moves.  Most moves leave all of them alone (`Frame`).

`CallInv` holds in every run: an append call is identified by its server,
incarnation and number, so that a reply is matched with the request it answers.
-/
import Mit6824.RaftVote

namespace Mit6824

namespace Raft

variable {n : ℕ} {C : Type} {me : Fin n}

/-- An accepted request touches the commit index and the apply goroutines only
through `followed`. -/
theorem accepted_replica (rf : Raft C me) (args : AppendEntriesArgs n C) :
    (rf.accepted args).matchIndex = rf.matchIndex ∧
      (rf.accepted args).lastApplied = rf.lastApplied ∧
      (rf.accepted args).appends = rf.appends ∧
      (rf.accepted args).epoch = rf.epoch := by
  obtain ⟨h1, -, -, -, h5, -⟩ := accepted_core rf args
  refine ⟨?_, ?_, h5, h1⟩
  · unfold accepted
    obtain ⟨ci, ap, h⟩ := followed_shape
      { rf.observeTerm args.term with logs := mergeLogs rf.logs args } args.leaderCommit
    rw [h, ← observeTerm_matchIndex rf args.term]
    rfl
  · unfold accepted
    obtain ⟨ci, ap, h⟩ := followed_shape
      { rf.observeTerm args.term with logs := mergeLogs rf.logs args } args.leaderCommit
    rw [h, ← observeTerm_lastApplied rf args.term]
    rfl

/-- An accepted request advances the commit index to the leader's, cut to the end of
the merged log. -/
theorem accepted_commitIndex (rf : Raft C me) (args : AppendEntriesArgs n C) :
    (rf.accepted args).commitIndex = if rf.commitIndex < args.leaderCommit then
      min args.leaderCommit ((mergeLogs rf.logs args).length - 1) else rf.commitIndex := by
  unfold accepted followed
  have hci : (rf.observeTerm args.term).commitIndex = rf.commitIndex :=
    observeTerm_commitIndex rf args.term
  by_cases hlt : rf.commitIndex < args.leaderCommit
  · rw [if_pos (by show _ < _; rw [hci]; exact hlt), if_pos hlt]
    rfl
  · rw [if_neg (by show ¬ _ < _; rw [hci]; exact hlt), if_neg hlt]
    exact hci

/-- **The commit index after an accepted request**: unchanged, or the leader's
commit index cut to the end of the merged log. -/
theorem accepted_commit (rf : Raft C me) (args : AppendEntriesArgs n C) :
    ((rf.accepted args).commitIndex = rf.commitIndex ∧
        (rf.accepted args).appliers = rf.appliers) ∨
      ∃ i, i = min args.leaderCommit ((mergeLogs rf.logs args).length - 1) ∧
        rf.commitIndex < args.leaderCommit ∧ (rf.accepted args).commitIndex = i ∧
        (rf.accepted args).appliers =
          if rf.lastApplied < i then
            rf.appliers ++ [⟨rf.lastApplied + 1,
              ((mergeLogs rf.logs args).take (i + 1)).drop (rf.lastApplied + 1), 0, false⟩]
          else rf.appliers := by
  unfold accepted followed
  have hci : (rf.observeTerm args.term).commitIndex = rf.commitIndex :=
    observeTerm_commitIndex rf args.term
  have hla : (rf.observeTerm args.term).lastApplied = rf.lastApplied :=
    observeTerm_lastApplied rf args.term
  have hap : (rf.observeTerm args.term).appliers = rf.appliers :=
    observeTerm_appliers rf args.term
  by_cases hlt : rf.commitIndex < args.leaderCommit
  · rw [if_pos (by show _ < _; rw [hci]; exact hlt)]
    refine .inr ⟨_, rfl, hlt, rfl, ?_⟩
    unfold committed persist
    dsimp only
    rw [hla, hap]
  · rw [if_neg (by show ¬ _ < _; rw [hci]; exact hlt)]
    exact .inl ⟨hci, hap⟩

/-- **The commit index after a successful reply**: unchanged, or the index that
the counting loop has found. -/
theorem matched_commit (rf : Raft C me) (server : Fin n) (args : AppendEntriesArgs n C) :
    ((rf.matched server args).commitIndex = rf.commitIndex ∧
        (rf.matched server args).appliers = rf.appliers) ∨
      ∃ i, (rf.recordMatch server args).commitScan (rf.logs.length - 1) = some i ∧
        (rf.matched server args).commitIndex = i ∧
        (rf.matched server args).appliers =
          if rf.lastApplied < i then
            rf.appliers ++ [⟨rf.lastApplied + 1,
              (rf.logs.take (i + 1)).drop (rf.lastApplied + 1), 0, false⟩]
          else rf.appliers := by
  unfold matched
  split
  · exact .inl ⟨rfl, rfl⟩
  · rename_i i hi
    exact .inr ⟨i, hi, rfl, rfl⟩

/-- A successful reply records the match and nothing else outside the commit. -/
theorem matched_replica (rf : Raft C me) (server : Fin n) (args : AppendEntriesArgs n C) :
    (rf.matched server args).matchIndex = (rf.recordMatch server args).matchIndex ∧
      (rf.matched server args).lastApplied = rf.lastApplied ∧
      (rf.matched server args).appends = rf.appends ∧
      (rf.matched server args).epoch = rf.epoch := by
  unfold matched
  split
  · exact ⟨rfl, rfl, rfl, rfl⟩
  · exact ⟨rfl, rfl, rfl, rfl⟩

end Raft

namespace Cluster

variable {n : ℕ} {C : Type} {c : Cluster n C} {a : Action n C} {s : Fin n}
  {rf : Raft C s} {msgs : List (Msg n C)} {events : List (Event n C)}

/-! ## The view -/

/-- The append calls of `rf` are those of server `s`, some of them returned. -/
structure SameCalls (c : Cluster n C) (s : Fin n) (rf : Raft C s) : Prop where
  epoch : rf.epoch = (c.nodes s).epoch
  length : rf.appends.length = (c.nodes s).appends.length
  call : ∀ {k : ℕ} {call'}, rf.appends[k]? = some call' → ∃ call,
    (c.nodes s).appends[k]? = some call ∧ call'.server = call.server ∧ call'.args = call.args

theorem SameCalls.of_eq (hepoch : rf.epoch = (c.nodes s).epoch)
    (happends : rf.appends = (c.nodes s).appends) : SameCalls c s rf where
  epoch := hepoch
  length := by rw [happends]
  call := fun h => ⟨_, happends ▸ h, rfl, rfl⟩

/-- A call that returns is still the same call. -/
theorem SameCalls.callDone {k : ℕ} {call : AppendCall n C}
    (hcall : (c.nodes s).appends[k]? = some call) (hepoch : rf.epoch = (c.nodes s).epoch)
    (happends : rf.appends = ((c.nodes s).callDone k call).appends) : SameCalls c s rf where
  epoch := hepoch
  length := by
    rw [happends]
    exact List.length_set ..
  call := by
    intro i call' h
    have h' : ((c.nodes s).appends.set k { call with waiting := false })[i]? = some call' := by
      rw [happends] at h
      exact h
    by_cases hi : k = i
    · subst hi
      obtain ⟨hk, -⟩ := List.getElem?_eq_some_iff.mp hcall
      rw [List.getElem?_set_self hk] at h'
      obtain rfl := Option.some.inj h'
      exact ⟨call, hcall, rfl, rfl⟩
    · rw [List.getElem?_set_ne hi] at h'
      exact ⟨call', h', rfl, rfl⟩

/-- The move leaves commit and apply bookkeeping alone. -/
structure Frame (c : Cluster n C) (s : Fin n) (rf : Raft C s) : Prop where
  calls : SameCalls c s rf
  commitIndex : rf.commitIndex = (c.nodes s).commitIndex
  lastApplied : rf.lastApplied = (c.nodes s).lastApplied
  appliers : rf.appliers = (c.nodes s).appliers

/-- The move sends no append request, accepts none and delivers nothing. -/
structure Silent (msgs : List (Msg n C)) (events : List (Event n C)) : Prop where
  append : ∀ {src e k dst args}, .appendEntries src e k dst args ∉ msgs
  reply : ∀ {src e k dst reply}, .appendEntriesReply src e k dst reply ∈ msgs →
    reply.success = false
  applied : ∀ {t e msg}, .applied t e msg ∉ events

theorem Silent.nil : Silent ([] : List (Msg n C)) [] := by
  constructor <;> simp

/-- The view of a move that replication needs. -/
inductive ReplicaMove (c : Cluster n C) :
    Action n C → (s : Fin n) → Raft C s → List (Msg n C) → List (Event n C) → Prop where
  | idle (a : Action n C) (s : Fin n) (rf : Raft C s) (msgs : List (Msg n C))
      (events : List (Event n C)) (h : Frame c s rf)
      (hmatch : rf.matchIndex = (c.nodes s).matchIndex) (hsilent : Silent msgs events) :
      ReplicaMove c a s rf msgs events
  | reboot (a : Action n C) (s : Fin n) (rf : Raft C s)
      (hepoch : rf.epoch = (c.nodes s).epoch + 1) (hstate : rf.state = .follower)
      (hcommit : rf.commitIndex = 0)
      (happlied : rf.lastApplied = 0) (happliers : rf.appliers = []) (happends : rf.appends = [])
      (hmatch : rf.matchIndex = fun _ => 0) : ReplicaMove c a s rf [] []
  | elect (m : ℕ) (s : Fin n) (rf : Raft C s) (h : Frame c s rf)
      (hmatch : rf.matchIndex = fun _ => 0) : ReplicaMove c (.deliver m) s rf [] []
  | send (s : Fin n) (k : ℕ) (server : Fin n) (i : ℕ) (prev : LogEntry C)
      (hstate : (c.nodes s).state = .leader) (hprev : (c.nodes s).logs[i]? = some prev) :
      ReplicaMove c (.sendHeartbeat s k) s
        (((c.nodes s).heartbeatDone k).called server ((c.nodes s).appendArgs i prev))
        [.appendEntries s (c.nodes s).epoch (c.nodes s).appends.length server
          ((c.nodes s).appendArgs i prev)] []
  | accept (m : ℕ) (src : Fin n) (e k : ℕ) (dst : Fin n) (args : AppendEntriesArgs n C)
      (prev : LogEntry C)
      (hm : c.net[m]? = some (.appendEntries src e k dst args))
      (hterm : (c.nodes dst).currentTerm ≤ args.term)
      (hprev : (c.nodes dst).logs[args.prevLogIndex]? = some prev)
      (hprevTerm : prev.term = args.prevLogTerm) :
      ReplicaMove c (.deliver m) dst ((c.nodes dst).accepted args)
        [.appendEntriesReply src e k dst { success := true }] []
  | record (m : ℕ) (src : Fin n) (k : ℕ) (reply : AppendEntriesReply) (call : AppendCall n C)
      (hm : c.net[m]? = some (.appendEntriesReply src (c.nodes src).epoch k call.server reply))
      (hcall : (c.nodes src).appends[k]? = some call) (hsuccess : reply.success = true) :
      ReplicaMove c (.deliver m) src
        (((c.nodes src).callDone k call).matched call.server call.args) [] []
  | append (s : Fin n) (k : ℕ) (p : PendingStart C) (hp : (c.nodes s).starts[k]? = some p) :
      ReplicaMove c (.startAppend s k) s
        (((c.nodes s).startDone k).startAppend p).1 [] []
  | applySend (s : Fin n) (k : ℕ) (g : Applier C) (msg : ApplyMsg C)
      (hg : (c.nodes s).appliers[k]? = some g) (hmsg : g.msg? = some msg) :
      ReplicaMove c (.applySend s k) s ((c.nodes s).applySend k) []
        [.applied s (c.nodes s).epoch msg]
  | applyStore (s : Fin n) (k : ℕ) (g : Applier C)
      (hg : (c.nodes s).appliers[k]? = some g) (hsent : g.sent = true) :
      ReplicaMove c (.applyStore s k) s ((c.nodes s).applyStore k g) [] []

/-- A move that keeps all of the bookkeeping fields. -/
theorem ReplicaMove.of_eq (hsilent : Silent msgs events) (hcalls : SameCalls c s rf)
    (hcommit : rf.commitIndex = (c.nodes s).commitIndex)
    (hlast : rf.lastApplied = (c.nodes s).lastApplied)
    (happliers : rf.appliers = (c.nodes s).appliers)
    (hmatch : rf.matchIndex = (c.nodes s).matchIndex) : ReplicaMove c a s rf msgs events :=
  .idle a s rf msgs events ⟨hcalls, hcommit, hlast, happliers⟩ hmatch hsilent

/-- A move that observes a term and persists. -/
theorem ReplicaMove.observeTerm {rf : Raft C s} (hsilent : Silent msgs events) (t : ℕ)
    (hcalls : SameCalls c s rf)
    (hcommit : rf.commitIndex = (c.nodes s).commitIndex)
    (hlast : rf.lastApplied = (c.nodes s).lastApplied)
    (happliers : rf.appliers = (c.nodes s).appliers)
    (hmatch : rf.matchIndex = (c.nodes s).matchIndex) :
    ReplicaMove c a s (rf.observeTerm t).persist msgs events := by
  have hcalls' : SameCalls c s (rf.observeTerm t).persist := by
    refine ⟨?_, ?_, ?_⟩
    · rw [Raft.persist_epoch, Raft.observeTerm_epoch]
      exact hcalls.epoch
    · rw [Raft.persist_appends, Raft.observeTerm_appends]
      exact hcalls.length
    · intro k call' h
      rw [Raft.persist_appends, Raft.observeTerm_appends] at h
      exact hcalls.call h
  refine .of_eq hsilent hcalls' ?_ ?_ ?_ ?_
  · rw [Raft.persist_commitIndex, Raft.observeTerm_commitIndex, hcommit]
  · rw [Raft.persist_lastApplied, Raft.observeTerm_lastApplied, hlast]
  · rw [Raft.persist_appliers, Raft.observeTerm_appliers, happliers]
  · rw [Raft.persist_matchIndex, Raft.observeTerm_matchIndex, hmatch]

/-! ## Apply goroutines -/

/-- Apply goroutines after a commit: those that were there, and one with a slice
of the log. -/
theorem mem_appliers_commit {appliers : List (Applier C)} {last i : ℕ} {l : List (LogEntry C)}
    {g : Applier C} (hmem : g ∈ if last < i then
      appliers ++ [⟨last + 1, (l.take (i + 1)).drop (last + 1), 0, false⟩] else appliers) :
    g ∈ appliers ∨ (g.startIdx = last + 1 ∧ g.entries = (l.take (i + 1)).drop (last + 1)) := by
  split_ifs at hmem
  · rcases List.mem_append.mp hmem with hold | hnew
    · exact .inl hold
    · rw [List.mem_singleton.mp hnew]
      exact .inr ⟨rfl, rfl⟩
  · exact .inl hmem

/-- Sending and storing keep the slices of the apply goroutines. -/
theorem mem_appliers_modify {appliers : List (Applier C)} {k : ℕ} {f : Applier C → Applier C}
    {g' : Applier C} (hmem : g' ∈ appliers.modify k f)
    (hf : ∀ g, (f g).startIdx = g.startIdx ∧ (f g).entries = g.entries) :
    ∃ g ∈ appliers, g'.startIdx = g.startIdx ∧ g'.entries = g.entries := by
  obtain ⟨i, hi⟩ := List.mem_iff_getElem?.mp hmem
  rw [List.getElem?_modify] at hi
  obtain ⟨g, hg, heq⟩ := Option.map_eq_some_iff.mp hi
  refine ⟨g, List.mem_of_getElem? hg, ?_⟩
  rw [← heq]
  split_ifs
  · exact hf g
  · exact ⟨rfl, rfl⟩

/-- **Where an apply goroutine comes from**: it was there with the same slice, or it was
spawned with a slice of the log up to the commit index. -/
theorem ReplicaMove.mem_appliers (h : ReplicaMove c a s rf msgs events) {g : Applier C}
    (hmem : g ∈ rf.appliers) :
    (∃ g' ∈ (c.nodes s).appliers, g.startIdx = g'.startIdx ∧ g.entries = g'.entries) ∨
      ∃ last, g.startIdx = last + 1 ∧
        g.entries = (rf.logs.take (rf.commitIndex + 1)).drop (last + 1) := by
  cases h with
  | idle a s rf msgs events hframe hmatch hsilent =>
      exact .inl ⟨g, hframe.appliers ▸ hmem, rfl, rfl⟩
  | reboot a s rf hepoch hstate hcommit happlied happliers happends hmatch =>
      rw [happliers] at hmem
      cases hmem
  | elect m s rf hframe hmatch => exact .inl ⟨g, hframe.appliers ▸ hmem, rfl, rfl⟩
  | send s k server j prev hstate hprev => exact .inl ⟨g, hmem, rfl, rfl⟩
  | accept m src e' k dst args prev hm hle hprev hprevTerm =>
      obtain ⟨-, -, -, -, -, hlogs⟩ := Raft.accepted_core (c.nodes s) args
      rcases (c.nodes s).accepted_commit args with ⟨-, heq⟩ | ⟨j, -, -, hcommit, heq⟩
      · exact .inl ⟨g, heq ▸ hmem, rfl, rfl⟩
      · rw [heq] at hmem
        rcases mem_appliers_commit hmem with hold | ⟨hstart, hentries⟩
        · exact .inl ⟨g, hold, rfl, rfl⟩
        · refine .inr ⟨_, hstart, ?_⟩
          rw [hlogs, hcommit, hentries]
  | record m src k reply call hm hcall hsuccess =>
      rcases ((c.nodes s).callDone k call).matched_commit call.server call.args with
        ⟨-, heq⟩ | ⟨j, -, hcommit, heq⟩
      · exact .inl ⟨g, heq ▸ hmem, rfl, rfl⟩
      · rw [heq] at hmem
        rcases mem_appliers_commit hmem with hold | ⟨hstart, hentries⟩
        · exact .inl ⟨g, hold, rfl, rfl⟩
        · refine .inr ⟨_, hstart, ?_⟩
          obtain ⟨ni, mi, ci, ap, hshape⟩ :=
            ((c.nodes s).callDone k call).matched_shape call.server call.args
          rw [hcommit, hentries, hshape]
  | append s k p hp => exact .inl ⟨g, hmem, rfl, rfl⟩
  | applySend s k g' msg hg' hmsg => exact .inl (mem_appliers_modify hmem fun g => ⟨rfl, rfl⟩)
  | applyStore s k g' hg' hsent => exact .inl (mem_appliers_modify hmem fun g => ⟨rfl, rfl⟩)

/-- **What is sent on an apply channel** is an entry of a slice of an apply goroutine. -/
theorem ReplicaMove.mem_applied (h : ReplicaMove c a s rf msgs events) {t : Fin n} {e : ℕ}
    {msg : ApplyMsg C} (hmem : .applied t e msg ∈ events) :
    ∃ g ∈ (c.nodes s).appliers, ∃ i entry, g.entries[i]? = some entry ∧
      entry.command = msg.command ∧ msg.commandIndex = g.startIdx + i := by
  cases h with
  | idle a s rf msgs events hframe hmatch hsilent => exact absurd hmem hsilent.applied
  | applySend s k g msg' hg' hmsg =>
      simp only [List.mem_singleton, Event.applied.injEq] at hmem
      obtain ⟨-, -, rfl⟩ := hmem
      unfold Applier.msg? at hmsg
      split_ifs at hmsg
      obtain ⟨entry, hentry, rfl⟩ := Option.map_eq_some_iff.mp hmsg
      exact ⟨g, List.mem_of_getElem? hg', _, entry, hentry, rfl, rfl⟩
  | _ => simp at hmem

/-! ## Every move has a replication view -/

variable [Inhabited C]

/-- A restart forgets all of the bookkeeping. -/
theorem ReplicaMove.restart (rf : Raft C s) (hepoch : rf.epoch = (c.nodes s).epoch) :
    ReplicaMove c a s rf.restart [] [] := by
  have hfields : rf.restart.commitIndex = 0 ∧ rf.restart.lastApplied = 0 ∧
      rf.restart.appliers = [] ∧ rf.restart.appends = [] ∧ rf.restart.matchIndex = fun _ => 0 := by
    unfold Raft.restart Raft.make Raft.readPersist
    rcases rf.persister with _ | d
    · exact ⟨rfl, rfl, rfl, rfl, rfl⟩
    · exact ⟨rfl, rfl, rfl, rfl, rfl⟩
  obtain ⟨hcommit, happlied, happliers, happends, hmatch⟩ := hfields
  exact .reboot a s _ (by rw [Raft.restart_epoch, hepoch]) (Raft.restart_state rf) hcommit
    happlied happliers happends hmatch

/-- Every move has a replication view. -/
theorem Move.replica (h : Move c a s rf msgs events) : ReplicaMove c a s rf msgs events := by
  have hsame : SameCalls c s (c.nodes s) := .of_eq rfl rfl
  have hnil : Silent ([] : List (Msg n C)) [] := .nil
  cases h with
  | crash => exact .restart _ rfl
  | handlerPanic m s t =>
      exact .restart _ (by rw [Raft.persist_epoch, Raft.observeTerm_epoch])
  | campaignPanic s rf hepoch hterm hlogs => exact .restart _ hepoch
  | campaign s last hlast =>
      refine .of_eq ⟨?_, ?_, ?_⟩ (.of_eq rfl rfl) rfl rfl rfl rfl <;> simp
  | heartbeat =>
      obtain ⟨hb, heq⟩ := (c.nodes s).heartbeatTimeout_shape
      rw [heq]
      exact .of_eq hnil (.of_eq rfl rfl) rfl rfl rfl rfl
  | heartbeatSkip => exact .of_eq hnil (.of_eq rfl rfl) rfl rfl rfl rfl
  | heartbeatSend s k server i prev hstate hprev => exact .send s k server i prev hstate hprev
  | voteRefuse =>
      refine .of_eq ⟨?_, ?_, ?_⟩ (.of_eq rfl rfl) rfl rfl rfl rfl <;> simp
  | voteBehind m src e k dst args hm =>
      refine .observeTerm ⟨?_, ?_, ?_⟩ args.term hsame rfl rfl rfl rfl <;> simp
  | voteGrant m src e k dst args last hm hrefuse hlast hup =>
      refine .of_eq ⟨by simp, by simp, by simp⟩
        (.of_eq (Raft.observeTerm_epoch _ _) (Raft.observeTerm_appends _ _)) ?_ ?_ ?_ ?_
      · exact Raft.observeTerm_commitIndex _ _
      · exact Raft.observeTerm_lastApplied _ _
      · exact Raft.observeTerm_appliers _ _
      · exact Raft.observeTerm_matchIndex _ _
  | voteCount => exact .of_eq hnil (.of_eq rfl rfl) rfl rfl rfl rfl
  | voteElect m => exact .elect m s _ ⟨.of_eq rfl rfl, rfl, rfl, rfl⟩ rfl
  | voteOther m src k dst reply round hm hround rf hrf =>
      rcases hrf with rfl | ⟨-, rfl⟩
      · exact .of_eq hnil (.of_eq rfl rfl) rfl rfl rfl rfl
      · exact .observeTerm hnil reply.term (.of_eq rfl rfl) rfl rfl rfl rfl
  | appendStale =>
      refine .of_eq ⟨by simp, ?_, by simp⟩ (.of_eq rfl rfl) rfl rfl rfl rfl
      intro src e k dst reply hmem
      simp only [List.mem_singleton, Msg.appendEntriesReply.injEq] at hmem
      rw [hmem.2.2.2.2]
  | appendReject m src e k dst args reply hm hterm hreply hreplyTerm =>
      refine .observeTerm ⟨by simp, ?_, by simp⟩ args.term hsame rfl rfl rfl rfl
      intro src' e' k' dst' reply' hmem
      simp only [List.mem_singleton, Msg.appendEntriesReply.injEq] at hmem
      rw [hmem.2.2.2.2, hreply]
  | appendAccept m src e k dst args prev hm hterm hprev hprevTerm =>
      exact .accept m src e k s args prev hm hterm hprev hprevTerm
  | replyMatch m src k reply call hm hcall hsuccess =>
      exact .record m s k reply call hm hcall hsuccess
  | replyHigher m src k reply call hm hcall hterm =>
      exact .observeTerm hnil reply.term (.callDone hcall rfl rfl) rfl rfl rfl rfl
  | replyBackoff m src k reply call next hcall =>
      exact .of_eq hnil (.callDone hcall rfl rfl) rfl rfl rfl rfl
  | startRead s command =>
      obtain ⟨st, heq⟩ := (c.nodes s).startRead_shape command
      rw [heq]
      exact .of_eq hnil (.of_eq rfl rfl) rfl rfl rfl rfl
  | startAppend s k p hp => exact .append s k p hp
  | applySend s k g msg hg hmsg => exact .applySend s k g msg hg hmsg
  | applyStore s k g hg hsent => exact .applyStore s k g hg hsent

/-! ## Append calls and their messages -/

omit [Inhabited C] in
/-- What a move does to the append calls: at most some return, a restart drops
them all, or one is added together with its message. -/
theorem ReplicaMove.call_cases (h : ReplicaMove c a s rf msgs events) :
    (SameCalls c s rf ∧ ∀ src e k dst args, .appendEntries src e k dst args ∉ msgs) ∨
    (rf.epoch = (c.nodes s).epoch + 1 ∧ rf.appends = [] ∧ msgs = []) ∨
    ∃ server args, rf.epoch = (c.nodes s).epoch ∧
      rf.appends = (c.nodes s).appends ++ [⟨server, args, true⟩] ∧
      msgs = [.appendEntries s (c.nodes s).epoch (c.nodes s).appends.length server args] := by
  cases h with
  | idle a s rf msgs events h hmatch hsilent =>
      exact .inl ⟨h.calls, fun _ _ _ _ _ => hsilent.append⟩
  | reboot a s rf hepoch hstate hcommit happlied happliers happends hmatch =>
      exact .inr (.inl ⟨hepoch, happends, rfl⟩)
  | elect m s rf h hmatch => exact .inl ⟨h.calls, by simp⟩
  | send s k server i prev hstate hprev =>
      exact .inr (.inr ⟨server, (c.nodes s).appendArgs i prev, rfl, rfl, rfl⟩)
  | accept m src e k dst args prev hm hterm hprev hprevTerm =>
      obtain ⟨-, -, happends, hepoch⟩ := (c.nodes s).accepted_replica args
      exact .inl ⟨.of_eq hepoch happends, by simp⟩
  | record m src k reply call hm hcall hsuccess =>
      obtain ⟨-, -, happends, hepoch⟩ :=
        ((c.nodes s).callDone k call).matched_replica call.server call.args
      exact .inl ⟨.callDone hcall hepoch happends, by simp⟩
  | append s k p hp => exact .inl ⟨.of_eq rfl rfl, by simp⟩
  | applySend s k g msg hg hmsg => exact .inl ⟨.of_eq rfl rfl, by simp⟩
  | applyStore s k g hg hsent => exact .inl ⟨.of_eq rfl rfl, by simp⟩

/-- Append calls and append requests belong together. -/
structure CallInv (c : Cluster n C) : Prop where
  bound : ∀ {src e k dst args}, .appendEntries src e k dst args ∈ c.net →
    e ≤ (c.nodes src).epoch ∧ (e = (c.nodes src).epoch → k < (c.nodes src).appends.length)
  unique : ∀ {src e k dst args dst' args'}, .appendEntries src e k dst args ∈ c.net →
    .appendEntries src e k dst' args' ∈ c.net → dst = dst' ∧ args = args'
  call : ∀ {s} {k : ℕ} {call}, (c.nodes s).appends[k]? = some call →
    .appendEntries s (c.nodes s).epoch k call.server call.args ∈ c.net

theorem callInv_init : CallInv (Cluster.init n C) where
  bound := by intro src e k dst args h; simp [init] at h
  unique := by intro src e k dst args dst' args' h; simp [init] at h
  call := by intro s k call h; simp [init, Raft.make, Raft.readPersist] at h

omit [Inhabited C] in
/-- The number of the next append call is free. -/
theorem CallInv.no_next (h : CallInv c) {dst : Fin n} {args : AppendEntriesArgs n C} :
    .appendEntries s (c.nodes s).epoch (c.nodes s).appends.length dst args ∉ c.net :=
  fun hm => lt_irrefl _ ((h.bound hm).2 rfl)

omit [Inhabited C] in
theorem CallInv.put_bound (hi : CallInv c) (h : ReplicaMove c a s rf msgs events) {src dst : Fin n}
    {e k : ℕ} {args : AppendEntriesArgs n C}
    (hm : .appendEntries src e k dst args ∈ (c.put s rf msgs events).net) :
    e ≤ ((c.put s rf msgs events).nodes src).epoch ∧
      (e = ((c.put s rf msgs events).nodes src).epoch →
        k < ((c.put s rf msgs events).nodes src).appends.length) := by
  by_cases hs : src = s
  · subst hs
    rw [put_nodes_self]
    rcases h.call_cases with
      ⟨hsame, hno⟩ | ⟨hepoch, -, rfl⟩ | ⟨server, args', hepoch, happends, rfl⟩
    · have hold := (List.mem_append.mp hm).resolve_right (hno _ _ _ _ _)
      rw [hsame.epoch, hsame.length]
      exact hi.bound hold
    · rw [put_net, List.append_nil] at hm
      have := (hi.bound hm).1
      rw [hepoch]
      exact ⟨by omega, fun heq => by omega⟩
    · rw [hepoch, happends, List.length_append, List.length_singleton]
      rcases List.mem_append.mp hm with hm | hm
      · obtain ⟨hle, hk⟩ := hi.bound hm
        exact ⟨hle, fun heq => (hk heq).trans (Nat.lt_succ_self _)⟩
      · simp only [List.mem_singleton, Msg.appendEntries.injEq] at hm
        obtain ⟨-, rfl, rfl, -⟩ := hm
        exact ⟨le_rfl, fun _ => Nat.lt_succ_self _⟩
  · rw [put_nodes_of_ne c hs]
    rcases h.call_cases with ⟨-, hno⟩ | ⟨-, -, rfl⟩ | ⟨server, args', -, -, rfl⟩
    · exact hi.bound ((List.mem_append.mp hm).resolve_right (hno _ _ _ _ _))
    · rw [put_net, List.append_nil] at hm
      exact hi.bound hm
    · rcases List.mem_append.mp hm with hm | hm
      · exact hi.bound hm
      · simp only [List.mem_singleton, Msg.appendEntries.injEq] at hm
        exact absurd hm.1 hs

omit [Inhabited C] in
theorem CallInv.put_unique (hi : CallInv c) (h : ReplicaMove c a s rf msgs events)
    {src dst dst' : Fin n} {e k : ℕ} {args args' : AppendEntriesArgs n C}
    (hm : .appendEntries src e k dst args ∈ (c.put s rf msgs events).net)
    (hm' : .appendEntries src e k dst' args' ∈ (c.put s rf msgs events).net) :
    dst = dst' ∧ args = args' := by
  rcases h.call_cases with ⟨-, hno⟩ | ⟨-, -, rfl⟩ | ⟨server, new, -, -, rfl⟩
  · exact hi.unique ((List.mem_append.mp hm).resolve_right (hno _ _ _ _ _))
      ((List.mem_append.mp hm').resolve_right (hno _ _ _ _ _))
  · rw [put_net, List.append_nil] at hm hm'
    exact hi.unique hm hm'
  · -- the new request has a fresh number
    rcases List.mem_append.mp hm with hold | hnew
    · rcases List.mem_append.mp hm' with hold' | hnew'
      · exact hi.unique hold hold'
      · simp only [List.mem_singleton, Msg.appendEntries.injEq] at hnew'
        obtain ⟨rfl, rfl, rfl, -⟩ := hnew'
        exact absurd hold hi.no_next
    · simp only [List.mem_singleton, Msg.appendEntries.injEq] at hnew
      obtain ⟨rfl, rfl, rfl, rfl, rfl⟩ := hnew
      rcases List.mem_append.mp hm' with hold' | hnew'
      · exact absurd hold' hi.no_next
      · simp only [List.mem_singleton, Msg.appendEntries.injEq] at hnew'
        exact ⟨hnew'.2.2.2.1.symm, hnew'.2.2.2.2.symm⟩

omit [Inhabited C] in
theorem CallInv.put_call (hi : CallInv c) (h : ReplicaMove c a s rf msgs events) {t : Fin n}
    {k : ℕ} {call : AppendCall n C}
    (hcall : ((c.put s rf msgs events).nodes t).appends[k]? = some call) :
    .appendEntries t ((c.put s rf msgs events).nodes t).epoch k call.server call.args
      ∈ (c.put s rf msgs events).net := by
  by_cases hs : t = s
  · subst hs
    rw [put_nodes_self] at hcall ⊢
    rcases h.call_cases with ⟨hsame, -⟩ | ⟨-, happends, -⟩ | ⟨server, args, hepoch, happends, rfl⟩
    · obtain ⟨old, hold, hserver, hargs⟩ := hsame.call hcall
      rw [hsame.epoch, hserver, hargs]
      exact List.mem_append_left _ (hi.call hold)
    · rw [happends] at hcall
      simp at hcall
    · rw [happends] at hcall
      rw [hepoch]
      rcases lt_or_ge k (c.nodes t).appends.length with hk | hk
      · rw [List.getElem?_append_left hk] at hcall
        exact List.mem_append_left _ (hi.call hcall)
      · rw [List.getElem?_append_right hk] at hcall
        have hk0 : k - (c.nodes t).appends.length = 0 := by
          by_contra hne
          rw [List.getElem?_eq_none (by simp; omega)] at hcall
          cases hcall
        rw [hk0] at hcall
        obtain rfl := Option.some.inj hcall
        obtain rfl : k = (c.nodes t).appends.length := by omega
        exact List.mem_append_right _ (List.mem_singleton_self _)
  · rw [put_nodes_of_ne c hs] at hcall ⊢
    exact List.mem_append_left _ (hi.call hcall)

omit [Inhabited C] in
/-- **Every move keeps calls and requests together.** -/
theorem CallInv.put (hi : CallInv c) (h : ReplicaMove c a s rf msgs events) :
    CallInv (c.put s rf msgs events) :=
  ⟨hi.put_bound h, hi.put_unique h, hi.put_call h⟩

end Cluster

end Mit6824
