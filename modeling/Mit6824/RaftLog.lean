/-
# Logs: the cluster refines the abstract replicated log

`Refines` relates a cluster to a state of `TermLog`: terms, logs and votes are
the same, a leader's log is the ledger of its term, a candidate still has the
log it runs with, and every append request in flight is a part of a ledger.
Every step of the cluster is answered by one step of the abstract log
(`refines_step`), provided that the elections are sound and that `Start` appends
only while its server is leader of the term that `Start` has read
(`SoundStart`): the code reads the term in one critical section and appends in
another, so the second condition is not automatic.

Log matching (`logMatching`) is then the log matching of `TermLog`, across any
two moments because ledgers only grow.
-/
import Mit6824.RaftElection
import Mit6824.TermLogSafety

namespace Mit6824

/-! ## The merge of `AppendEntries` -/

namespace Raft

variable {n : ℕ} {C : Type} {logs m : List (LogEntry C)} {start : ℕ}

/-- The log has an entry of the same term as `e` at index `i`. -/
def Matches (logs : List (LogEntry C)) (i : ℕ) (e : LogEntry C) : Prop :=
  (logs[i]?).map LogEntry.term = some e.term

/-- No unmatched entry: all of them match. -/
theorem matches_of_unmatchIdx_none {entries : List (LogEntry C)} :
    ∀ {idx : ℕ}, unmatchIdx logs start idx entries = none →
      ∀ j e, entries[j]? = some e → Matches logs (start + idx + j) e := by
  induction entries with
  | nil => intro idx _ j e he; simp at he
  | cons x entries ih =>
      intro idx h j e he
      rw [unmatchIdx] at h
      split_ifs at h with hx
      rcases j with _ | j
      · obtain rfl : x = e := by simpa using he
        exact hx
      · have hrest := ih h j e (by simpa using he)
        have hidx : start + (idx + 1) + j = start + idx + (j + 1) := by omega
        rwa [hidx] at hrest

/-- The unmatched entry: it does not match, and all before it do. -/
theorem matches_of_unmatchIdx_some {entries : List (LogEntry C)} :
    ∀ {idx u : ℕ}, unmatchIdx logs start idx entries = some u →
      ∃ v, u = idx + v ∧ (∀ j e, j < v → entries[j]? = some e → Matches logs (start + idx + j) e) ∧
        ∃ e, entries[v]? = some e ∧ ¬ Matches logs (start + u) e := by
  induction entries with
  | nil => intro idx u h; simp [unmatchIdx] at h
  | cons x entries ih =>
      intro idx u h
      rw [unmatchIdx] at h
      split_ifs at h with hx
      · obtain ⟨v, rfl, hbefore, e, he, hnot⟩ := ih h
        refine ⟨v + 1, by omega, ?_, e, by simpa using he, hnot⟩
        intro j e' hj he'
        rcases j with _ | j
        · obtain rfl : x = e' := by simpa using he'
          exact hx
        · have hrest := hbefore j e' (by omega) (by simpa using he')
          have hidx : start + (idx + 1) + j = start + idx + (j + 1) := by omega
          rwa [hidx] at hrest
      · obtain rfl := Option.some.inj h
        exact ⟨0, rfl, by omega, x, rfl, hx⟩

/-- Two logs agree up to any index where their terms agree. -/
def Agree (logs m : List (LogEntry C)) : Prop :=
  ∀ i e e', logs[i]? = some e → m[i]? = some e' → e.term = e'.term →
    logs.take (i + 1) = m.take (i + 1)

theorem Agree.take_eq (h : Agree logs m) {i : ℕ} {e : LogEntry C} (he : m[i]? = some e)
    (hmatch : Matches logs i e) : logs.take (i + 1) = m.take (i + 1) := by
  obtain ⟨e', he', hterm⟩ := Option.map_eq_some_iff.mp hmatch
  exact h i e' e he' he hterm

/-- **What an accepted request does to the log**: when the whole log `m` that
the request stands for is already there, nothing; else the log becomes `m`. -/
theorem mergeLogs_cases {args : AppendEntriesArgs n C} {prev : LogEntry C} (h : Agree logs m)
    (hm : m[args.prevLogIndex]? = some prev) (hprev : Matches logs args.prevLogIndex prev)
    (hentries : m.drop (args.prevLogIndex + 1) = args.entries) :
    (m <+: logs ∧ mergeLogs logs args = logs) ∨ (¬ m <+: logs ∧ mergeLogs logs args = m) := by
  have hget : ∀ j, args.entries[j]? = m[args.prevLogIndex + 1 + j]? := by
    intro j
    rw [← hentries, List.getElem?_drop]
  have hhead := h.take_eq hm hprev
  obtain ⟨hlt, -⟩ := List.getElem?_eq_some_iff.mp hm
  unfold mergeLogs
  rcases hu : unmatchIdx logs (args.prevLogIndex + 1) 0 args.entries with _ | u
  · refine .inl ⟨?_, rfl⟩
    -- the last entry of `m` matches, so all of `m` is there
    have hlast : logs.take m.length = m.take m.length := by
      rcases Nat.lt_or_ge (args.prevLogIndex + 1) m.length with hlong | hshort
      · have hj : args.prevLogIndex + 1 + (m.length - 1 - (args.prevLogIndex + 1))
            = m.length - 1 := by omega
        have he : m[m.length - 1]? = some (m.get ⟨m.length - 1, by omega⟩) := by
          rw [List.getElem?_eq_getElem (by omega)]
          rfl
        have hx := hget (m.length - 1 - (args.prevLogIndex + 1))
        rw [hj, he] at hx
        have hmatch := matches_of_unmatchIdx_none hu _ _ hx
        rw [Nat.add_zero, hj] at hmatch
        have := h.take_eq he hmatch
        rwa [show m.length - 1 + 1 = m.length by omega] at this
      · rwa [show args.prevLogIndex + 1 = m.length by omega] at hhead
    rw [List.take_length] at hlast
    rw [← hlast]
    exact List.take_prefix _ _
  · obtain ⟨v, hv, hbefore, e, he, hnot⟩ := matches_of_unmatchIdx_some hu
    obtain rfl : u = v := by omega
    have htake : logs.take (args.prevLogIndex + 1 + u) = m.take (args.prevLogIndex + 1 + u) := by
      rcases u with _ | u
      · exact hhead
      · obtain ⟨hulen, -⟩ := List.getElem?_eq_some_iff.mp he
        have hx : args.entries[u]? = some (args.entries.get ⟨u, by omega⟩) := by
          rw [List.getElem?_eq_getElem (by omega)]
          rfl
        have hmatch := hbefore u _ (by omega) hx
        exact h.take_eq ((hget u).symm.trans hx) hmatch
    refine .inr ⟨?_, ?_⟩
    · intro hpre
      apply hnot
      have hlogs := getElem?_of_isPrefix hpre ((hget u).symm.trans he)
      show (logs[args.prevLogIndex + 1 + u]?).map LogEntry.term = some e.term
      rw [hlogs]
      rfl
    · show logs.take (args.prevLogIndex + 1 + u) ++ args.entries.drop u = m
      rw [htake, ← hentries, List.drop_drop, List.take_append_drop]

end Raft

namespace Cluster

variable {n : ℕ} {C : Type} {c : Cluster n C} {a : Action n C} {s : Fin n}
  {rf : Raft C s} {msgs : List (Msg n C)} {events : List (Event n C)}
  {σ σ' : TermLog.State (Fin n) (LogEntry C)}

open TermLog

/-! ## The condition on `Start` -/

/-- `Start` appends only while its server is leader of the term it has read. -/
def SoundStart (c : Cluster n C) : Action n C → Prop :=
  c.Appends fun s p => (c.nodes s).state = .leader ∧ (c.nodes s).currentTerm = p.term

instance (c : Cluster n C) (a : Action n C) : Decidable (c.SoundStart a) :=
  inferInstanceAs (Decidable (c.Appends _ a))

/-- A step that elects and starts soundly. -/
def SoundLog (c : Cluster n C) (a : Action n C) : Prop :=
  c.SoundElection a ∧ c.SoundStart a

instance (c : Cluster n C) (a : Action n C) : Decidable (c.SoundLog a) :=
  inferInstanceAs (Decidable (_ ∧ _))

/-! ## The relation -/

/-- An append request is a part of a ledger: together with the entries before
it, a prefix that contains the leader's log at its election. -/
def Sent (σ : State (Fin n) (LogEntry C)) (args : AppendEntriesArgs n C) (m : List (LogEntry C)) :
    Prop :=
  ∃ l prev, σ.ledger args.term = some l ∧ σ.base args.term <+: m ∧ m <+: l ∧
    m[args.prevLogIndex]? = some prev ∧ prev.term = args.prevLogTerm ∧
    m.drop (args.prevLogIndex + 1) = args.entries

theorem Sent.grows {args : AppendEntriesArgs n C} {m : List (LogEntry C)} (h : Sent σ args m)
    (hg : Grows σ σ') : Sent σ' args m := by
  obtain ⟨l, prev, hl, hbase, hm, hprev⟩ := h
  obtain ⟨l', hl', hp⟩ := hg.ledger _ _ hl
  exact ⟨l', prev, hl', by rw [hg.base _ _ hl]; exact hbase, hm.trans hp, hprev⟩

/-- The part of the ledger that a request stands for has the length that the
leader will record. -/
theorem Sent.length {args : AppendEntriesArgs n C} {m : List (LogEntry C)} (h : Sent σ args m) :
    m.length = args.prevLogIndex + args.entries.length + 1 := by
  obtain ⟨l, prev, -, -, -, hprev, -, hentries⟩ := h
  obtain ⟨hlt, -⟩ := List.getElem?_eq_some_iff.mp hprev
  rw [← hentries, List.length_drop]
  omega

/-- One server and its abstract state. -/
structure NodeRel (σ : State (Fin n) (LogEntry C)) (s : Fin n) (node : Raft C s) : Prop where
  term : σ.term s = node.currentTerm
  log : σ.log s = node.logs
  /-- A candidate has not won, and runs with its log while nobody has. -/
  candidate : node.state = .candidate → 0 < node.currentTerm ∧
    σ.leader node.currentTerm ≠ some s ∧
    (σ.ledger node.currentTerm = none → σ.ballot s node.currentTerm = some node.logs)
  /-- A leader has won, and its log is the ledger. -/
  leader : node.state = .leader → σ.leader node.currentTerm = some s ∧
    σ.ledger node.currentTerm = some node.logs

/-- The abstract state of a cluster. -/
structure Refines (c : Cluster n C) (σ : State (Fin n) (LogEntry C)) : Prop where
  node : ∀ s, NodeRel σ s (c.nodes s)
  vote : ∀ {v T x}, σ.vote v T = some x ↔ c.Voted v T x
  /-- A vote request tells the end of the candidate's ballot. -/
  request : ∀ {src e k dst args}, .requestVote src e k dst args ∈ c.net → ∃ b last,
    σ.ballot src args.term = some b ∧ b.getLast? = some last ∧ last.term = args.lastLogTerm ∧
    b.length = args.lastLogIndex + 1
  won : ∀ {T x}, σ.leader T = some x → c.Won x T
  ledger : ∀ {T l}, σ.ledger T = some l → T = 0 ∨ ∃ x, σ.leader T = some x
  sent : ∀ {src e k dst args}, .appendEntries src e k dst args ∈ c.net → ∃ m, Sent σ args m
  /-- A successful reply is an acknowledgement of its request. -/
  reply : ∀ {src e k dst reply}, .appendEntriesReply src e k dst reply ∈ c.net →
    reply.success = true → ∃ args, .appendEntries src e k dst args ∈ c.net ∧
      args.prevLogIndex + args.entries.length < σ.acked dst args.term

theorem refines_init [Inhabited C] :
    Refines (Cluster.init n C) (State.init (default : LogEntry C)) where
  node := by
    intro s
    refine ⟨rfl, rfl, fun h => ?_, fun h => ?_⟩
    · cases h
    · cases h
  vote := by
    intro v T x
    refine ⟨fun h => by simp [State.init] at h, ?_⟩
    rintro (h | ⟨-, e, k, h⟩) <;> simp [init] at h
  request := by intro src e k dst args h; simp [init] at h
  won := by intro T x h; simp [State.init] at h
  ledger := by
    intro T l h
    simp only [State.init, Option.ite_none_right_eq_some] at h
    exact .inl h.1
  sent := by intro src e k dst args h; simp [init] at h
  reply := by intro src e k dst reply h; simp [init] at h

/-- A quiet move gives no votes. -/
theorem Quiet.voted_iff (hq : Quiet c s msgs events) {v x : Fin n} {T : ℕ} :
    (c.put s rf msgs events).Voted v T x ↔ c.Voted v T x := by
  refine ⟨?_, fun h => h.put s rf msgs events⟩
  rintro (h | ⟨rfl, e, k, h⟩)
  · rcases List.mem_append.mp h with h | h
    · exact .inl h
    · exact absurd h hq.granted
  · rcases List.mem_append.mp h with h | h
    · exact .inr ⟨rfl, e, k, h⟩
    · exact absurd h hq.ballot

/-- The votes after a ballot. -/
theorem voted_ballot_iff {T e k : ℕ} {v x : Fin n} {U : ℕ} :
    (c.put s rf msgs [.ballot s e k T]).Voted v U x ↔
      c.Voted v U x ∨ (v = s ∧ U = T ∧ x = s) := by
  constructor
  · rintro (hx | ⟨rfl, e', k', hx⟩)
    · rcases List.mem_append.mp hx with hx | hx
      · exact .inl (.inl hx)
      · simp at hx
    · rcases List.mem_append.mp hx with hx | hx
      · exact .inl (.inr ⟨rfl, e', k', hx⟩)
      · simp only [List.mem_singleton, Event.ballot.injEq] at hx
        exact .inr ⟨hx.1, hx.2.2.2, hx.1⟩
  · rintro (hx | ⟨rfl, rfl, rfl⟩)
    · exact hx.put s rf msgs _
    · exact .inr ⟨rfl, e, k, List.mem_append_right _ (List.mem_singleton_self _)⟩

/-- The votes after a grant. -/
theorem voted_granted_iff {T : ℕ} {v x y : Fin n} {U : ℕ} :
    (c.put s rf msgs [.granted s T y]).Voted v U x ↔
      c.Voted v U x ∨ (v = s ∧ U = T ∧ x = y) := by
  constructor
  · rintro (hx | ⟨rfl, e', k', hx⟩)
    · rcases List.mem_append.mp hx with hx | hx
      · exact .inl (.inl hx)
      · simp only [List.mem_singleton, Event.granted.injEq] at hx
        exact .inr hx
    · rcases List.mem_append.mp hx with hx | hx
      · exact .inl (.inr ⟨rfl, e', k', hx⟩)
      · simp at hx
  · rintro (hx | ⟨rfl, rfl, rfl⟩)
    · exact hx.put s rf msgs _
    · exact .inl (List.mem_append_right _ (List.mem_singleton_self _))

/-- A vote table changed at one place, where it had no other vote. -/
theorem Refines.setAt_vote_iff (h : Refines c σ) {T : ℕ} {y : Fin n}
    (hfree : ∀ x, c.Voted s T x → x = y) {v x : Fin n} {U : ℕ} :
    setAt σ.vote s T (some y) v U = some x ↔ c.Voted v U x ∨ (v = s ∧ U = T ∧ x = y) := by
  by_cases hnew : v = s ∧ U = T
  · obtain ⟨rfl, rfl⟩ := hnew
    rw [setAt_self]
    constructor
    · intro hx
      exact .inr ⟨rfl, rfl, (Option.some.inj hx).symm⟩
    · rintro (hx | ⟨-, -, rfl⟩)
      · rw [hfree x hx]
      · rfl
  · rw [setAt_of_ne _ _ hnew, h.vote]
    exact ⟨.inl, fun hx => hx.resolve_right fun hx => hnew ⟨hx.1, hx.2.1⟩⟩

/-- Vote requests stay covered when ballots stay and no request is sent. -/
theorem Refines.request_put (h : Refines c σ)
    (hballot : ∀ v T b, σ.ballot v T = some b → σ'.ballot v T = some b)
    (hnew : ∀ src e k dst args, .requestVote src e k dst args ∉ msgs) {src dst : Fin n} {e k : ℕ}
    {args : RequestVoteArgs n}
    (hm : .requestVote src e k dst args ∈ (c.put s rf msgs events).net) :
    ∃ b last, σ'.ballot src args.term = some b ∧ b.getLast? = some last ∧
      last.term = args.lastLogTerm ∧ b.length = args.lastLogIndex + 1 := by
  rcases List.mem_append.mp hm with hm | hm
  · obtain ⟨b, last, hb, hlast⟩ := h.request hm
    exact ⟨b, last, hballot _ _ _ hb, hlast⟩
  · exact absurd hm (hnew src e k dst args)

/-- Append requests stay parts of ledgers when none is sent. -/
theorem Refines.sent_put (h : Refines c σ) (hg : Grows σ σ')
    (hnew : ∀ src e k dst args, .appendEntries src e k dst args ∉ msgs) {src dst : Fin n}
    {e k : ℕ} {args : AppendEntriesArgs n C}
    (hm : .appendEntries src e k dst args ∈ (c.put s rf msgs events).net) :
    ∃ m, Sent σ' args m := by
  rcases List.mem_append.mp hm with hm | hm
  · obtain ⟨m, hsent⟩ := h.sent hm
    exact ⟨m, hsent.grows hg⟩
  · exact absurd hm (hnew src e k dst args)

/-- Successful replies that were there stay acknowledged. -/
theorem Refines.reply_of_mem (h : Refines c σ) (hg : Grows σ σ') {src dst : Fin n} {e k : ℕ}
    {reply : AppendEntriesReply} (hm : .appendEntriesReply src e k dst reply ∈ c.net)
    (hsuccess : reply.success = true) :
    ∃ args, .appendEntries src e k dst args ∈ (c.put s rf msgs events).net ∧
      args.prevLogIndex + args.entries.length < σ'.acked dst args.term := by
  obtain ⟨args, hargs, hacked⟩ := h.reply hm hsuccess
  exact ⟨args, List.mem_append_left _ hargs, hacked.trans_le (hg.acked _ _)⟩

/-- Replies stay acknowledged when no success is reported. -/
theorem Refines.reply_put (h : Refines c σ) (hg : Grows σ σ')
    (hnew : ∀ src e k dst reply, .appendEntriesReply src e k dst reply ∈ msgs →
      reply.success = false) {src dst : Fin n} {e k : ℕ} {reply : AppendEntriesReply}
    (hm : .appendEntriesReply src e k dst reply ∈ (c.put s rf msgs events).net)
    (hsuccess : reply.success = true) :
    ∃ args, .appendEntries src e k dst args ∈ (c.put s rf msgs events).net ∧
      args.prevLogIndex + args.entries.length < σ'.acked dst args.term := by
  rcases List.mem_append.mp hm with hm | hm
  · exact h.reply_of_mem hg hm hsuccess
  · rw [hnew src e k dst reply hm] at hsuccess
    cases hsuccess

/-! ## Drifting -/

/-- A server that drifts is answered by an observed term. -/
theorem Refines.drift (h : Refines c σ) (hw : Wf LogEntry.term σ)
    (hlogs : rf.logs = (c.nodes s).logs) (hterm : (c.nodes s).currentTerm ≤ rf.currentTerm)
    (hstate : rf.state = .follower ∨ rf.state = (c.nodes s).state ∧
      rf.currentTerm = (c.nodes s).currentTerm) (hq : Quiet c s msgs events) :
    Refines (c.put s rf msgs events) (σ.observe s rf.currentTerm) where
  node := by
    refine (forall_put (P := NodeRel (σ.observe s rf.currentTerm))).mpr ⟨?_, fun t ht => ?_⟩
    · refine ⟨?_, (h.node s).log.trans hlogs.symm, ?_, ?_⟩
      · show Function.update σ.term s (max (σ.term s) rf.currentTerm) s = _
        rw [Function.update_self, (h.node s).term, max_eq_right hterm]
      · intro hc
        rcases hstate with hf | ⟨hs, ht⟩
        · rw [hf] at hc
          cases hc
        · rw [hs] at hc
          rw [ht, hlogs]
          exact (h.node s).candidate hc
      · intro hl
        rcases hstate with hf | ⟨hs, ht⟩
        · rw [hf] at hl
          cases hl
        · rw [hs] at hl
          rw [ht, hlogs]
          exact (h.node s).leader hl
    · refine ⟨?_, (h.node t).log, (h.node t).candidate, (h.node t).leader⟩
      show Function.update σ.term s (max (σ.term s) rf.currentTerm) t = _
      rw [Function.update_of_ne ht, (h.node t).term]
  vote := h.vote.trans hq.voted_iff.symm
  request := h.request_put (fun _ _ _ hb => hb) fun _ _ _ _ _ => hq.request
  won := fun hx => (h.won hx).put s rf msgs events
  ledger := h.ledger
  sent := by
    intro src e k dst args hm
    rcases List.mem_append.mp hm with hm | hm
    · exact h.sent hm
    · -- a leader sends from its log, which is the ledger
      obtain ⟨hlead, i, prev, hprev, rfl⟩ := hq.append hm
      obtain ⟨-, hledger⟩ := (h.node s).leader hlead
      exact ⟨(c.nodes s).logs, (c.nodes s).logs, prev, hledger, hw.base_isPrefix hledger,
        List.prefix_rfl, hprev, rfl, rfl⟩
  reply := by
    intro src e k dst reply hm
    have hstep : Step LogEntry.term σ (σ.observe s rf.currentTerm) := .observe s _
    exact h.reply_put hstep.grows (fun _ _ _ _ _ hm => hq.reply hm) hm

/-! ## Elections -/

variable [Inhabited C]

omit [Inhabited C] in
/-- A campaign: only the new ballot is new. -/
theorem campaign_ballot_of_ne {t : Fin n} {T : ℕ}
    (h : ¬ (t = s ∧ T = σ.term s + 1)) : (σ.campaign s).ballot t T = σ.ballot t T :=
  setAt_of_ne _ _ h

/-- Election timers are answered by campaigns. -/
theorem Refines.campaign (h : Refines c σ) (hw : Wf LogEntry.term σ) (hi : VoteInv c)
    {last : LogEntry C} (hlast : (c.nodes s).logs[(c.nodes s).logs.length - 1]? = some last)
    (hs : (c.nodes s).state ≠ .leader)
    (hrf : rf = (c.nodes s).campaigned last)
    (hmsgs : msgs = (Raft.others s).map fun server =>
      .requestVote s (c.nodes s).epoch (c.nodes s).elections.length server
        ⟨(c.nodes s).currentTerm + 1, s, (c.nodes s).logs.length - 1, last.term⟩)
    (hevents : events = [.ballot s (c.nodes s).epoch (c.nodes s).elections.length
      ((c.nodes s).currentTerm + 1)]) :
    Refines (c.put s rf msgs events) (σ.campaign s) := by
  subst hrf hmsgs hevents
  have hstep : Step LogEntry.term σ (σ.campaign s) := .campaign s
  have hT : σ.term s = (c.nodes s).currentTerm := (h.node s).term
  have hlog : σ.log s = (c.nodes s).logs := (h.node s).log
  have hballot : (σ.campaign s).ballot s ((c.nodes s).currentTerm + 1)
      = some (c.nodes s).logs := by
    rw [← hT, ← hlog]
    exact setAt_self _ _ _ _
  refine ⟨?_, ?_, ?_, fun hx => (h.won hx).put s _ _ _, h.ledger, ?_, ?_⟩
  · refine (forall_put (P := NodeRel (σ.campaign s))).mpr ⟨?_, fun t ht => ?_⟩
    · refine ⟨?_, hlog, fun _ => ⟨Nat.succ_pos _, ?_, fun _ => hballot⟩, fun hl => ?_⟩
      · rw [State.campaign_term_self, hT]
        rfl
      · -- nobody has won a term that nobody has reached
        intro hlead
        have := hw.leader_le hlead
        rw [hT] at this
        exact absurd this (Nat.not_succ_le_self _)
      · have hif : (if (c.nodes s).state = .follower then NodeState.candidate
          else (c.nodes s).state) = .leader := hl
        split_ifs at hif
        exact absurd hif hs
    · refine ⟨?_, (h.node t).log, fun hc => ?_, (h.node t).leader⟩
      · show Function.update σ.term s _ t = _
        rw [Function.update_of_ne ht, (h.node t).term]
      · obtain ⟨hpos, hne, hb⟩ := (h.node t).candidate hc
        refine ⟨hpos, hne, fun hnone => ?_⟩
        rw [campaign_ballot_of_ne (fun h => ht h.1)]
        exact hb hnone
  · intro v T x
    rw [voted_ballot_iff, ← hT]
    -- the server has given no vote in a term beyond its own
    refine h.setAt_vote_iff fun y hy => ?_
    rcases hi.voted hy with hlt | ⟨heq, -⟩ <;> omega
  · intro src e k dst args hm
    rcases List.mem_append.mp hm with hm | hm
    · obtain ⟨b, l, hb, hbl⟩ := h.request hm
      refine ⟨b, l, ?_, hbl⟩
      rw [campaign_ballot_of_ne, hb]
      rintro ⟨rfl, heq⟩
      have := hw.ballot_le hb
      omega
    · simp only [List.mem_map, Msg.requestVote.injEq] at hm
      obtain ⟨p, -, rfl, -, -, -, rfl⟩ := hm
      obtain ⟨hlt, -⟩ := List.getElem?_eq_some_iff.mp hlast
      refine ⟨_, last, hballot, ?_, rfl, ?_⟩
      · rw [List.getLast?_eq_getElem?]
        exact hlast
      · show _ = (c.nodes s).logs.length - 1 + 1
        omega
  · exact h.sent_put hstep.grows (by simp)
  · exact h.reply_put hstep.grows (by simp)

omit [Inhabited C] in
/-- What the two servers compare in `RequestVote` is the up-to-date test. -/
theorem upToDate_of_not_behind {b l : List (LogEntry C)} {x last : LogEntry C}
    {args : RequestVoteArgs n} (hx : b.getLast? = some x) (hxt : x.term = args.lastLogTerm)
    (hlen : b.length = args.lastLogIndex + 1) (hlast : l[l.length - 1]? = some last)
    (hup : ¬ (args.lastLogTerm < last.term ∨
      (args.lastLogTerm = last.term ∧ args.lastLogIndex < l.length - 1))) :
    UpToDate LogEntry.term b l := by
  rw [← List.getLast?_eq_getElem?] at hlast
  refine ⟨x, last, hx, hlast, ?_⟩
  rw [hxt]
  by_cases heq : args.lastLogTerm = last.term
  · refine .inr ⟨heq.symm, ?_⟩
    by_contra hlt
    exact hup (.inr ⟨heq, by omega⟩)
  · refine .inl (lt_of_le_of_ne ?_ (Ne.symm heq))
    by_contra hlt
    exact hup (.inl (not_le.mp hlt))

omit [Inhabited C] in
/-- The role of a server that observes a term. -/
theorem observeTerm_state {rf : Raft C s} {t : ℕ} (hle : rf.currentTerm ≤ t)
    (h : (rf.observeTerm t).state ≠ .follower) : t = rf.currentTerm ∧
      (rf.observeTerm t).state = rf.state := by
  have hge := Raft.observeTerm_of_state_ne h
  exact ⟨le_antisymm hge hle, by rw [Raft.observeTerm_of_le hge]⟩

omit [Inhabited C] in
/-- A server that observes a term and keeps its log keeps its abstract state. -/
theorem Refines.node_observe (h : Refines c σ) {t : ℕ} (hle : (c.nodes s).currentTerm ≤ t)
    (hterm : σ'.term s = t) (hlog : σ'.log s = (c.nodes s).logs) (hleader : σ'.leader = σ.leader)
    (hledger : σ'.ledger = σ.ledger) (hballot : σ'.ballot = σ.ballot)
    (hrfterm : rf.currentTerm = t) (hrflogs : rf.logs = (c.nodes s).logs)
    (hrfstate : rf.state = ((c.nodes s).observeTerm t).state) : NodeRel σ' s rf := by
  refine ⟨hterm.trans hrfterm.symm, hlog.trans hrflogs.symm, fun hc => ?_, fun hl => ?_⟩
  · rw [hrfstate] at hc
    obtain ⟨heq, hs⟩ := observeTerm_state hle (by rw [hc]; simp)
    rw [hrfterm, hrflogs, hleader, hledger, hballot, heq]
    exact (h.node s).candidate (hs ▸ hc)
  · rw [hrfstate] at hl
    obtain ⟨heq, hs⟩ := observeTerm_state hle (by rw [hl]; simp)
    rw [hrfterm, hrflogs, hleader, hledger, heq]
    exact (h.node s).leader (hs ▸ hl)

/-- A granted vote is answered by a granted vote. -/
theorem Refines.grant (h : Refines c σ) (hi : VoteInv c) {src : Fin n} {e k : ℕ}
    {args : RequestVoteArgs n} {last : LogEntry C}
    (hm : .requestVote src e k s args ∈ c.net) (hrefuse : ¬ (c.nodes s).refusesVote args)
    (hlast : (c.nodes s).logs[(c.nodes s).logs.length - 1]? = some last)
    (hup : ¬ (args.lastLogTerm < last.term ∨
      (args.lastLogTerm = last.term ∧ args.lastLogIndex < (c.nodes s).logs.length - 1))) :
    Step LogEntry.term σ (σ.grant s args.candidateId args.term) ∧
      Refines (c.put s ((c.nodes s).granted args)
        [.requestVoteReply src e k s ⟨args.term, true⟩]
        [.granted s args.term args.candidateId]) (σ.grant s args.candidateId args.term) := by
  have hle := Raft.le_of_not_refusesVote hrefuse
  have hfree : ∀ x, c.Voted s args.term x → x = args.candidateId := by
    intro x hx
    rcases hi.voted hx with hlt | ⟨heq, hvote⟩
    · omega
    · by_contra hne
      exact hrefuse (.inr ⟨heq, by rw [hvote]; simp, by rw [hvote]; simpa using hne⟩)
  obtain ⟨hsrc, -⟩ := hi.request hm
  obtain ⟨b, x, hb, hx, hxt, hlen⟩ := h.request hm
  have hstep : Step LogEntry.term σ (σ.grant s args.candidateId args.term) := by
    refine .grant s args.candidateId args.term b (by rw [hsrc]; exact hb) ?_ ?_ ?_
    · rw [(h.node s).term]
      exact hle
    · rcases hv : σ.vote s args.term with _ | y
      · exact .inl rfl
      · rw [hfree y (h.vote.mp hv)]
        exact .inr rfl
    · rw [(h.node s).log]
      exact upToDate_of_not_behind hx hxt hlen hlast hup
  refine ⟨hstep, ?_, ?_, ?_, fun hx => (h.won hx).put s _ _ _, h.ledger, ?_, ?_⟩
  · refine (forall_put (P := NodeRel (σ.grant s args.candidateId args.term))).mpr
      ⟨?_, fun t ht => ?_⟩
    · refine h.node_observe hle (State.grant_term_self ..) (h.node s).log rfl rfl rfl ?_ ?_ rfl
      · show ((c.nodes s).observeTerm args.term).currentTerm = args.term
        rw [Raft.observeTerm_currentTerm, max_eq_right hle]
      · exact Raft.observeTerm_logs _ _
    · refine ⟨?_, (h.node t).log, (h.node t).candidate, (h.node t).leader⟩
      show Function.update σ.term s _ t = _
      rw [Function.update_of_ne ht, (h.node t).term]
  · intro v T x
    rw [voted_granted_iff]
    exact h.setAt_vote_iff hfree
  · exact h.request_put (fun _ _ _ hb => hb) (by simp)
  · exact h.sent_put hstep.grows (by simp)
  · exact h.reply_put hstep.grows (by simp)

/-- Nobody has won the term in which a server is being elected. -/
theorem Refines.ledger_none_of_won (h : Refines c σ) (hi : VoteInv c)
    (hs : (c.nodes s).state = .candidate) (hwon : c.Won s (c.nodes s).currentTerm) :
    σ.ledger (c.nodes s).currentTerm = none := by
  obtain ⟨hpos, hne, -⟩ := (h.node s).candidate hs
  by_contra hsome
  obtain ⟨l, hl⟩ := Option.ne_none_iff_exists'.mp hsome
  rcases h.ledger hl with h0 | ⟨x, hx⟩
  · omega
  · -- the voter that two majorities share has voted once
    obtain ⟨P, hP, hvs⟩ := hwon
    obtain ⟨Q, hQ, hvx⟩ := h.won hx
    obtain ⟨v, hvP, hvQ⟩ := hP.inter hQ
    have heq : s = x := hi.unique (hvs v hvP) (hvx v hvQ)
    exact hne (by rw [hx, heq])

/-- A won election is answered by an election. -/
theorem Refines.elect (h : Refines c σ) (hi : VoteInv c)
    (hs : (c.nodes s).state = .candidate) (hwon : c.Won s (c.nodes s).currentTerm)
    (hstate : rf.state = .leader) (hterm : rf.currentTerm = (c.nodes s).currentTerm)
    (hlogs : rf.logs = (c.nodes s).logs) :
    Step LogEntry.term σ (σ.elect s) ∧ Refines (c.put s rf [] []) (σ.elect s) := by
  have hT : σ.term s = (c.nodes s).currentTerm := (h.node s).term
  have hlog : σ.log s = (c.nodes s).logs := (h.node s).log
  obtain ⟨hpos, hne, hballot⟩ := (h.node s).candidate hs
  have hnone := h.ledger_none_of_won hi hs hwon
  obtain ⟨V, hV, hvotes⟩ := hwon
  have hstep : Step LogEntry.term σ (σ.elect s) := by
    refine .elect s V hV (fun v hv => ?_) (by rw [hT]; exact hnone) ?_
    · rw [hT]
      exact h.vote.mpr (hvotes v hv)
    · rw [hT, hlog]
      exact hballot hnone
  have hleader : ∀ T, T ≠ σ.term s → (σ.elect s).leader T = σ.leader T :=
    fun T hne => Function.update_of_ne hne _ _
  have hledger : ∀ T, T ≠ σ.term s → (σ.elect s).ledger T = σ.ledger T :=
    fun T hne => Function.update_of_ne hne _ _
  have hself : (σ.elect s).leader (σ.term s) = some s := Function.update_self ..
  refine ⟨hstep, ?_, h.vote.trans (Quiet.nil c s).voted_iff.symm, ?_, ?_, ?_, ?_, ?_⟩
  · refine (forall_put (P := NodeRel (σ.elect s))).mpr ⟨?_, fun t ht => ?_⟩
    · refine ⟨hT.trans hterm.symm, hlog.trans hlogs.symm, fun hc => ?_, fun _ => ?_⟩
      · rw [hstate] at hc
        cases hc
      · rw [hterm, hlogs, ← hT, ← hlog]
        exact ⟨hself, State.elect_ledger_self σ s⟩
    · refine ⟨(h.node t).term, (h.node t).log, fun hc => ?_, fun hl => ?_⟩
      · obtain ⟨hpos', hne', hb⟩ := (h.node t).candidate hc
        refine ⟨hpos', ?_, fun hnone' => hb ?_⟩
        · by_cases heq : (c.nodes t).currentTerm = σ.term s
          · rw [heq, hself]
            exact fun hst => ht (Option.some.inj hst).symm
          · rw [hleader _ heq]
            exact hne'
        · by_cases heq : (c.nodes t).currentTerm = σ.term s
          · rw [heq, State.elect_ledger_self] at hnone'
            cases hnone'
          · rwa [hledger _ heq] at hnone'
      · -- the term of another leader has a ledger already
        obtain ⟨hlt, hgt⟩ := (h.node t).leader hl
        have heq : (c.nodes t).currentTerm ≠ σ.term s := by
          intro heq
          rw [heq, hT, hnone] at hgt
          cases hgt
        rw [hleader _ heq, hledger _ heq]
        exact ⟨hlt, hgt⟩
  · exact h.request_put (fun _ _ _ hb => hb) (by simp)
  · intro T x hx
    by_cases heq : T = σ.term s
    · subst heq
      rw [hself] at hx
      obtain rfl := Option.some.inj hx
      rw [hT]
      exact Won.put ⟨V, hV, hvotes⟩ s rf [] []
    · rw [hleader T heq] at hx
      exact (h.won hx).put s rf [] []
  · intro T l hl
    by_cases heq : T = σ.term s
    · subst heq
      exact .inr ⟨s, hself⟩
    · rw [hledger T heq] at hl
      rw [hleader T heq]
      exact h.ledger hl
  · exact h.sent_put hstep.grows (by simp)
  · exact h.reply_put hstep.grows (by simp)

/-! ## Replication -/

omit [Inhabited C] in
/-- An accepted request leaves the log as it is when it holds the part of the
ledger that the request stands for, and makes it that part otherwise. -/
theorem Refines.mergeLogs_cases (h : Refines c σ) (hw : Wf LogEntry.term σ)
    {args : AppendEntriesArgs n C} {m : List (LogEntry C)} {prev : LogEntry C}
    (hsent : Sent σ args m) (hprev : (c.nodes s).logs[args.prevLogIndex]? = some prev)
    (hprevTerm : prev.term = args.prevLogTerm) :
    (m <+: (c.nodes s).logs ∧ Raft.mergeLogs (c.nodes s).logs args = (c.nodes s).logs) ∨
      (¬ m <+: (c.nodes s).logs ∧ Raft.mergeLogs (c.nodes s).logs args = m) := by
  obtain ⟨l, prev', hl, hbase, hm, hprev', hprevTerm', hentries⟩ := hsent
  refine Raft.mergeLogs_cases ?_ hprev' ?_ hentries
  · intro i e e' he he' hterm
    have hgood := hw.good_log s
    rw [(h.node s).log] at hgood
    exact hgood.take_eq ((hw.good_ledger hl).of_isPrefix hm) he he' hterm
  · show ((c.nodes s).logs[args.prevLogIndex]?).map LogEntry.term = some prev'.term
    rw [hprev, hprevTerm', ← hprevTerm]
    rfl

omit [Inhabited C] in
/-- An accepted append request is answered by taking over its part of the
ledger. -/
theorem Refines.accept (h : Refines c σ) (hw : Wf LogEntry.term σ) {src : Fin n} {e k : ℕ}
    {args : AppendEntriesArgs n C} {m : List (LogEntry C)} {prev : LogEntry C}
    (hmem : .appendEntries src e k s args ∈ c.net) (hsent : Sent σ args m)
    (hle : (c.nodes s).currentTerm ≤ args.term)
    (hprev : (c.nodes s).logs[args.prevLogIndex]? = some prev)
    (hprevTerm : prev.term = args.prevLogTerm) :
    Step LogEntry.term σ (σ.accept s args.term m) ∧
      Refines (c.put s ((c.nodes s).accepted args)
        [.appendEntriesReply src e k s { success := true }] []) (σ.accept s args.term m) := by
  have hmerge := h.mergeLogs_cases hw hsent hprev hprevTerm
  have hlen := hsent.length
  obtain ⟨l, prev', hl, hbase, hm, hrest⟩ := hsent
  have hlog : σ.log s = (c.nodes s).logs := (h.node s).log
  have hstep : Step LogEntry.term σ (σ.accept s args.term m) :=
    .accept s args.term l m hl hbase hm (by rw [(h.node s).term]; exact hle)
  obtain ⟨-, -, hrfstate, -, -, hrflogs⟩ := Raft.accepted_core (c.nodes s) args
  have hlogs : (σ.accept s args.term m).log s = Raft.mergeLogs (c.nodes s).logs args := by
    rcases State.accept_log σ s args.term m s with ⟨-, hnot, heq⟩ | ⟨hyes, heq⟩
    · rw [hlog] at hnot
      rcases hmerge with ⟨hp, -⟩ | ⟨-, hmerged⟩
      · exact absurd hp hnot
      · rw [heq, hmerged]
    · have hp := hyes rfl
      rw [hlog] at hp
      rcases hmerge with ⟨-, hmerged⟩ | ⟨hnot, -⟩
      · rw [heq, hmerged, hlog]
      · exact absurd hp hnot
  refine ⟨hstep, ?_, ?_, ?_, fun hx => (h.won hx).put s _ _ _, h.ledger, ?_, ?_⟩
  · refine (forall_put (P := NodeRel (σ.accept s args.term m))).mpr ⟨?_, fun t ht => ?_⟩
    · have hrfterm : ((c.nodes s).accepted args).currentTerm = args.term := by
        rw [Raft.accepted_currentTerm, max_eq_right hle]
      refine ⟨(State.accept_term_self ..).trans hrfterm.symm, hlogs.trans hrflogs.symm,
        fun hc => ?_, fun hlead => ?_⟩
      · -- a candidate that accepts has lost: the term has a ledger
        rw [hrfstate] at hc
        obtain ⟨heq, hs⟩ := observeTerm_state hle (by rw [hc]; simp)
        obtain ⟨hpos, hne, -⟩ := (h.node s).candidate (hs ▸ hc)
        rw [hrfterm]
        refine ⟨heq ▸ hpos, heq ▸ hne, fun hnone => ?_⟩
        have hnone' : σ.ledger args.term = none := hnone
        rw [hl] at hnone'
        cases hnone'
      · -- a leader has the whole ledger already
        rw [hrfstate] at hlead
        obtain ⟨heq, hs⟩ := observeTerm_state hle (by rw [hlead]; simp)
        obtain ⟨hleader, hledger⟩ := (h.node s).leader (hs ▸ hlead)
        rw [← heq] at hleader hledger
        rw [hl] at hledger
        obtain rfl := Option.some.inj hledger
        rw [hrfterm, hrflogs]
        refine ⟨hleader, ?_⟩
        rcases hmerge with ⟨-, hmerged⟩ | ⟨hnot, -⟩
        · rw [hmerged]
          exact hl
        · exact absurd hm hnot
    · refine ⟨?_, ?_, (h.node t).candidate, (h.node t).leader⟩
      · show Function.update σ.term s _ t = _
        rw [Function.update_of_ne ht, (h.node t).term]
      · show Function.update σ.log s _ t = _
        rw [Function.update_of_ne ht, (h.node t).log]
  · intro v T x
    refine h.vote.trans ⟨fun hv => hv.put s _ _ _, ?_⟩
    rintro (hx | ⟨rfl, e', k', hx⟩)
    · rw [put_history, List.append_nil] at hx
      exact .inl hx
    · rw [put_history, List.append_nil] at hx
      exact .inr ⟨rfl, e', k', hx⟩
  · exact h.request_put (fun _ _ _ hb => hb) (by simp)
  · exact h.sent_put hstep.grows (by simp)
  · intro src' e' k' dst' reply' hm' hsuccess
    rcases List.mem_append.mp hm' with hm' | hm'
    · exact h.reply_of_mem hstep.grows hm' hsuccess
    · simp only [List.mem_singleton, Msg.appendEntriesReply.injEq] at hm'
      obtain ⟨rfl, rfl, rfl, rfl, -⟩ := hm'
      refine ⟨args, List.mem_append_left _ hmem, ?_⟩
      show _ < setAt σ.acked dst' args.term (max (σ.acked dst' args.term) m.length) dst' args.term
      rw [setAt_self]
      omega

omit [Inhabited C] in
/-- An append of `Start` is answered by an append. -/
theorem Refines.append (h : Refines c σ) {p : PendingStart C}
    (hs : (c.nodes s).state = .leader) (hp : (c.nodes s).currentTerm = p.term)
    (hstate : rf.state = .leader) (hterm : rf.currentTerm = (c.nodes s).currentTerm)
    (hlogs : rf.logs = (c.nodes s).logs ++ [⟨p.command, p.term⟩]) :
    Step LogEntry.term σ (σ.append s ⟨p.command, p.term⟩) ∧
      Refines (c.put s rf [] []) (σ.append s ⟨p.command, p.term⟩) := by
  have hT : σ.term s = (c.nodes s).currentTerm := (h.node s).term
  have hlog : σ.log s = (c.nodes s).logs := (h.node s).log
  obtain ⟨hleader, hledger⟩ := (h.node s).leader hs
  have hstep : Step LogEntry.term σ (σ.append s ⟨p.command, p.term⟩) :=
    .append s _ (by rw [hT]; exact hleader) (by rw [hT, hlog]; exact hledger)
      (by rw [hT]; exact hp.symm)
  have hother : ∀ T, T ≠ σ.term s → (σ.append s ⟨p.command, p.term⟩).ledger T = σ.ledger T :=
    fun T hne => Function.update_of_ne hne _ _
  refine ⟨hstep, ?_, h.vote.trans (Quiet.nil c s).voted_iff.symm, ?_,
    fun hx => (h.won hx).put s rf [] [], ?_, ?_, ?_⟩
  · refine (forall_put (P := NodeRel (σ.append s ⟨p.command, p.term⟩))).mpr
      ⟨?_, fun t ht => ?_⟩
    · refine ⟨hT.trans hterm.symm, ?_, fun hc => ?_, fun _ => ?_⟩
      · rcases State.append_log σ s ⟨p.command, p.term⟩ s with ⟨-, heq⟩ | ⟨hne, -⟩
        · rw [heq, hlogs, hlog]
        · exact absurd rfl hne
      · rw [hstate] at hc
        cases hc
      · rw [hterm, hlogs, ← hlog]
        refine ⟨hleader, ?_⟩
        rw [← hT]
        exact State.append_ledger_self ..
    · refine ⟨(h.node t).term, ?_, fun hc => ?_, fun hl => ?_⟩
      · show Function.update σ.log s _ t = _
        rw [Function.update_of_ne ht, (h.node t).log]
      · obtain ⟨hpos, hne, hb⟩ := (h.node t).candidate hc
        refine ⟨hpos, hne, fun hnone => hb ?_⟩
        by_cases heq : (c.nodes t).currentTerm = σ.term s
        · rw [heq, State.append_ledger_self] at hnone
          cases hnone
        · rwa [hother _ heq] at hnone
      · -- another leader is leader of another term
        obtain ⟨hlt, hgt⟩ := (h.node t).leader hl
        have heq : (c.nodes t).currentTerm ≠ σ.term s := by
          intro heq
          rw [heq, hT, hleader] at hlt
          exact ht (Option.some.inj hlt).symm
        rw [hother _ heq]
        exact ⟨hlt, hgt⟩
  · exact h.request_put (fun _ _ _ hb => hb) (by simp)
  · intro T l hl
    by_cases heq : T = σ.term s
    · subst heq
      exact .inr ⟨s, by rw [← hT] at hleader; exact hleader⟩
    · rw [hother T heq] at hl
      exact h.ledger hl
  · exact h.sent_put hstep.grows (by simp)
  · exact h.reply_put hstep.grows (by simp)

/-- **The cluster refines the replicated log**: every sound step is answered by
one step of the abstract system. -/
theorem refines_step {c' : Cluster n C} (h : Refines c σ) (hw : Wf LogEntry.term σ)
    (hi : VoteInv c) (hok : c.SoundLog a) (hstep : c.step a = some c') :
    ∃ σ', Step LogEntry.term σ σ' ∧ Refines c' σ' := by
  obtain ⟨s, rf, msgs, events, rfl, hmove⟩ := step_move hstep
  have hcore := hmove.core (hi.synced s)
  cases hcore with
  | drift a s rf msgs events hd hstate hquiet =>
      exact ⟨_, .observe s rf.currentTerm, h.drift hw hd.logs hd.term hstate hquiet⟩
  | reboot a s rf hepoch hstate hterm hvote hlogs helections =>
      exact ⟨_, .observe s rf.currentTerm,
        h.drift hw hlogs hterm (.inl hstate) (Quiet.nil c s)⟩
  | campaign s last hlast =>
      exact ⟨_, .campaign s, h.campaign hw hi hlast (hok.1.1 s rfl) rfl rfl rfl⟩
  | grant m src e k dst args last hm hrefuse hlast hup =>
      exact ⟨_, h.grant hi hm hrefuse hlast hup⟩
  | elect m src k dst reply round hm hround hwait hgranted hstate hcount hdrift =>
      obtain ⟨-, V, hV, hvotes⟩ :=
        hi.won_of_elect hok.1 hmove rfl hm hround hgranted hstate hcount rfl
      refine ⟨_, h.elect hi hstate ⟨V, hV, fun v hv => ?_⟩ rfl rfl rfl⟩
      exact (Quiet.nil c s).voted_iff.mp (hvotes v hv)
  | accept m src e k dst args prev hm hterm hprev hprevTerm =>
      obtain ⟨l, hsent⟩ := h.sent hm
      exact ⟨_, h.accept hw hm hsent hterm hprev hprevTerm⟩
  | append s k p hp rf hrf =>
      obtain ⟨hs, hterm⟩ := hok.2 (s, k) rfl p hp
      subst hrf
      exact ⟨_, h.append hs hterm hs rfl rfl⟩

/-- A cluster with its abstract state, and the invariants of both. -/
structure Tracks (c : Cluster n C) (σ : State (Fin n) (LogEntry C)) : Prop where
  votes : VoteInv c
  refines : Refines c σ
  wf : Wf LogEntry.term σ
  safe : Safe LogEntry.term σ

theorem tracks_init : Tracks (Cluster.init n C) (State.init (default : LogEntry C)) :=
  ⟨voteInv_init, refines_init, wf_init rfl, safe_init⟩

/-- A sound step is answered by an abstract step, with all invariants kept. -/
theorem Tracks.step {c' : Cluster n C} (h : Tracks c σ) (hok : c.SoundLog a)
    (hstep : c.step a = some c') : ∃ σ', Step LogEntry.term σ σ' ∧ Tracks c' σ' := by
  obtain ⟨σ', hσ, href⟩ := refines_step h.refines h.wf h.votes hok hstep
  exact ⟨σ', hσ, h.votes.step hstep, href, h.wf.step hσ, h.safe.step h.wf hσ⟩

/-- The logs of a tracked cluster are good. -/
theorem Tracks.good (h : Tracks c σ) (s : Fin n) : Good LogEntry.term σ (c.nodes s).logs := by
  rw [← (h.refines.node s).log]
  exact h.wf.good_log s

end Cluster

/-! ## Log matching -/

section Runs

variable {n : ℕ} {C : Type} [Inhabited C]

open TermLog

/-- When every step that meets the condition is answered by a step of the abstract log that
restores the relation, a run of such steps has a run of the abstract log beside it. -/
theorem exists_beside (r : (raftSystem n C).Run) {ok : Cluster n C → Action n C → Prop}
    (hok : r.Meets ok) {R : Cluster n C → State (Fin n) (LogEntry C) → Prop}
    (hinit : R (Cluster.init n C) (State.init default))
    (hstep : ∀ {c a c' σ}, R c σ → ok c a → c.step a = some c' →
      ∃ σ', Step LogEntry.term σ σ' ∧ R c' σ') :
    ∃ g : ℕ → State (Fin n) (LogEntry C), (∀ k, R (r.state k) (g k)) ∧
      ∀ j k, j ≤ k → Grows (g j) (g k) := by
  obtain ⟨g, -, hrel, hsteps⟩ := r.exists_ghost hok (R := R) (B := Step LogEntry.term) hinit (by
    intro c a c' σ h hc hca
    obtain ⟨σ', hσ, h'⟩ := hstep h hc hca
    exact ⟨σ', .single hσ, h'⟩)
  exact ⟨g, hrel, fun j k hjk => grows_of_steps (TransitionSystem.ghost_reaches hsteps hjk)⟩

/-- A run of sound steps has a run of the abstract log beside it. -/
theorem exists_tracks (r : (raftSystem n C).Run) (hok : r.Meets Cluster.SoundLog) :
    ∃ g : ℕ → State (Fin n) (LogEntry C), (∀ k, (r.state k).Tracks (g k)) ∧
      ∀ j k, j ≤ k → Grows (g j) (g k) :=
  exists_beside r hok Cluster.tracks_init fun h => h.step

/-- **Log matching.**  In every run whose elections and `Start`s are sound: if
the logs of two servers, at whatever moments, hold entries of the same term at
the same index, then the entries carry the same command and the logs are equal
below that index. -/
theorem logMatching (r : (raftSystem n C).Run) (hok : r.Meets Cluster.SoundLog)
    (j k : ℕ) (s t : Fin n) (i : ℕ) (e e' : LogEntry C)
    (he : ((r.state j).nodes s).logs[i]? = some e)
    (he' : ((r.state k).nodes t).logs[i]? = some e') (hterm : e.term = e'.term) :
    e.command = e'.command ∧
      ((r.state j).nodes s).logs.take i = ((r.state k).nodes t).logs.take i := by
  obtain ⟨g, htracks, hgrows⟩ := exists_tracks r hok
  have hgood := ((htracks j).good s).grows (hgrows j (max j k) (le_max_left j k))
  have hgood' := ((htracks k).good t).grows (hgrows k (max j k) (le_max_right j k))
  have htake := hgood.take_eq hgood' he he' hterm
  have hentry : e = e' := by
    have h : (((r.state j).nodes s).logs.take (i + 1))[i]? = some e := by
      rw [List.getElem?_take_of_lt (Nat.lt_succ_self i), he]
    rw [htake, List.getElem?_take_of_lt (Nat.lt_succ_self i), he'] at h
    exact (Option.some.inj h).symm
  refine ⟨by rw [hentry], ?_⟩
  have h := congrArg (List.take i) htake
  rwa [List.take_take, List.take_take, min_eq_left (Nat.le_succ i)] at h

/-- Server `0` wins term `1`, replicates and commits an entry and applies it; then
server `1` wins term `2`, replicates and commits a second entry and applies
both. -/
def handover : (raftSystem 3 ℕ).Run :=
  (raftSystem 3 ℕ).ofList
    [.electionTimeout 0, .deliver 0, .deliver 2, .startRead 0 7, .startAppend 0 0,
      .sendHeartbeat 0 0, .deliver 3, .deliver 4, .applySend 0 0, .applyStore 0 0,
      .electionTimeout 1, .deliver 5, .deliver 7, .startRead 1 8, .startAppend 1 0,
      .sendHeartbeat 1 0, .deliver 8, .deliver 9, .applySend 1 0, .applyStore 1 0, .applySend 1 0]

theorem handover_soundLog : handover.Meets Cluster.SoundLog :=
  TransitionSystem.meets_ofList (by decide)

/-- The entry of term `1` in the log of server `0` and, much later, in that of
server `1`. -/
theorem logMatching_handover :
    handover.Meets Cluster.SoundLog ∧
      ((handover.state 5).nodes 0).logs[1]? = some ⟨7, 1⟩ ∧
      ((handover.state 21).nodes 1).logs[1]? = some ⟨7, 1⟩ ∧
      ((handover.state 5).nodes 0).logs.take 1 = ((handover.state 21).nodes 1).logs.take 1 := by
  have hok := handover_soundLog
  have h0 : ((handover.state 5).nodes 0).logs[1]? = some ⟨7, 1⟩ := by decide
  have h1 : ((handover.state 21).nodes 1).logs[1]? = some ⟨7, 1⟩ := by decide
  exact ⟨hok, h0, h1, (logMatching handover hok 5 21 0 1 1 _ _ h0 h1 rfl).2⟩

/-- Three calls of `Start` on the leader `0` of term `1` have read the term; two of
them append.  Server `2` then wins term `2` without these entries and overwrites
the log of server `0`; after that the third call appends, with term `1`. -/
def lateStart : (raftSystem 3 ℕ).Run :=
  (raftSystem 3 ℕ).ofList
    [.electionTimeout 0, .deliver 0, .deliver 2, .startRead 0 7, .startRead 0 8, .startRead 0 6,
      .startAppend 0 1, .startAppend 0 1, .electionTimeout 2, .electionTimeout 2, .deliver 6,
      .deliver 7, .startRead 2 9, .startAppend 2 0, .sendHeartbeat 2 0, .deliver 8,
      .startAppend 0 0]

/-- Without the condition on `Start`, a server has two different entries of term
`1` at index `2`, at two moments of the run. -/
theorem logMatching_fails :
    ¬ ∀ (r : (raftSystem 3 ℕ).Run) (j k : ℕ) (s t : Fin 3) (i : ℕ) (e e' : LogEntry ℕ),
      ((r.state j).nodes s).logs[i]? = some e → ((r.state k).nodes t).logs[i]? = some e' →
      e.term = e'.term → e.command = e'.command ∧
        ((r.state j).nodes s).logs.take i = ((r.state k).nodes t).logs.take i := by
  intro h
  have hbefore : ((lateStart.state 8).nodes 0).logs[2]? = some ⟨6, 1⟩ := by decide
  have hafter : ((lateStart.state 17).nodes 0).logs[2]? = some ⟨7, 1⟩ := by decide
  have heq := (h lateStart 8 17 0 0 2 _ _ hbefore hafter rfl).1
  exact absurd heq (by decide)

end Runs

end Mit6824
