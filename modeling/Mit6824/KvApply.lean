/-
# A key/value server behind overlapping apply goroutines

One Raft server and the key/value server on its apply channel.  Every call of
`setCommitIndex` may spawn a goroutine that sends its own slice of the log;
several of them may be under way, each writes `lastApplied` in a separate step,
and the log itself may change behind the commit index.  The channel has no
buffer, so a send is one step of both sides.

Messages then arrive more than once and out of order, but without gaps: a
goroutine starts at most one index behind what was delivered (`GapFree`).  What
arrives is an entry that was delivered before, or the next one, and the filter
of the apply loop makes the state of the key/value map the result of the
committed entries up to the largest index delivered (`replica_db`).
-/
import Mit6824.RaftMove
import Mit6824.KvServer

namespace Mit6824

/-! ## The system -/

/-- A Raft server with the key/value server on its apply channel, and the indices
delivered so far. -/
structure Replica {n : ℕ} (me : Fin n) where
  rf : Raft Op me
  kv : KVServer
  delivered : List ℕ

/-- The steps of a replica. -/
inductive ReplicaAction where
  /-- `Start` or `AppendEntries` change the log. -/
  | setLogs (logs : List (LogEntry Op))
  | setCommitIndex (i : ℕ)
  /-- Apply goroutine `k` sends, and the apply loop of the key/value server takes the
  message. -/
  | applySend (k : ℕ)
  /-- Apply goroutine `k` stores `lastApplied`. -/
  | applyStore (k : ℕ)
  /-- The apply loop hands its notification over. -/
  | notify
  /-- The steps of `waitApplying`. -/
  | register (index : ℕ)
  | receive (ch : ℕ)
  | unregister (index : ℕ)

namespace Replica

variable {n : ℕ} {me : Fin n}

/-- Both servers freshly started. -/
def init (me : Fin n) : Replica me :=
  ⟨Raft.make 0 none, KVServer.start, []⟩

/-- The replica with another log. -/
def withLogs (c : Replica me) (logs : List (LogEntry Op)) : Replica me :=
  { c with rf := { c.rf with logs := logs } }

/-- One step of a replica; `none` when the action is not enabled. -/
def step (c : Replica me) : ReplicaAction → Option (Replica me)
  | .setLogs logs => some (c.withLogs logs)
  | .setCommitIndex i =>
      match c.rf.setCommitIndex i with
      | .error _ => none
      | .ok rf => some { c with rf := rf }
  | .applySend k =>
      if c.kv.sending = none then
        match (c.rf.appliers[k]?).bind Applier.msg? with
        | none => none
        | some msg => some ⟨c.rf.applySend k, c.kv.applyMsg msg, c.delivered ++ [msg.commandIndex]⟩
      else none
  | .applyStore k =>
      match c.rf.appliers[k]? with
      | none => none
      | some g => if g.sent then some { c with rf := c.rf.applyStore k g } else none
  | .notify => c.kv.notify.map fun kv => { c with kv := kv }
  | .register index => some { c with kv := (c.kv.register index).1 }
  | .receive ch => (c.kv.receive ch).map fun p => { c with kv := p.1 }
  | .unregister index => some { c with kv := c.kv.unregister index }

/-- The operations at the indices `1, …, h` of the log. -/
def ops (c : Replica me) (h : ℕ) : List Op :=
  ((c.rf.logs.take (h + 1)).drop 1).map LogEntry.command

/-- The largest index delivered so far; `0` before the first delivery. -/
def largest (c : Replica me) : ℕ :=
  c.delivered.foldl max 0

/-- Committed entries do not change, the committed log is disciplined, and the arguments
of `setCommitIndex` increase. -/
def Steady (c : Replica me) : ReplicaAction → Prop
  | .setLogs logs => logs.take (c.rf.commitIndex + 1) = c.rf.logs.take (c.rf.commitIndex + 1)
  | .setCommitIndex i => c.rf.commitIndex < i ∧ Disciplined (c.ops i)
  | _ => True

instance (c : Replica me) : (a : ReplicaAction) → Decidable (c.Steady a)
  | .setLogs logs => inferInstanceAs (Decidable
      (logs.take (c.rf.commitIndex + 1) = c.rf.logs.take (c.rf.commitIndex + 1)))
  | .setCommitIndex i => inferInstanceAs (Decidable (c.rf.commitIndex < i ∧ Disciplined (c.ops i)))
  | .applySend _ => .isTrue trivial
  | .applyStore _ => .isTrue trivial
  | .notify => .isTrue trivial
  | .register _ => .isTrue trivial
  | .receive _ => .isTrue trivial
  | .unregister _ => .isTrue trivial

end Replica

/-- The replica as a transition system. -/
def replicaSystem {n : ℕ} (me : Fin n) : TransitionSystem (Replica me) ReplicaAction :=
  ⟨Replica.init me, Replica.step⟩

namespace Replica

variable {n : ℕ} {me : Fin n} {c c' : Replica me} {h i : ℕ}

/-! ## The operations of the log -/

/-- The log up to a larger index has the operations of the log up to a smaller one. -/
theorem ops_isPrefix (hi : h ≤ i) : c.ops h <+: c.ops i := by
  unfold ops
  apply List.IsPrefix.map
  apply List.IsPrefix.drop
  exact List.take_prefix_take_left (by omega)

/-- One index more. -/
theorem ops_succ {e : LogEntry Op} (he : c.rf.logs[h + 1]? = some e) :
    c.ops (h + 1) = c.ops h ++ [e.command] := by
  obtain ⟨hlt, -⟩ := List.getElem?_eq_some_iff.mp he
  unfold ops
  rw [List.take_add_one (i := h + 1), he, List.drop_append_of_le_length
    (by rw [List.length_take]; omega), List.map_append]
  rfl

/-- The operation at an index is one of those up to a larger index. -/
theorem mem_ops {e : LogEntry Op} (hpos : 1 ≤ i) (hi : i ≤ h) (he : c.rf.logs[i]? = some e) :
    e.command ∈ c.ops h := by
  unfold ops
  refine List.mem_map.mpr ⟨e, List.mem_of_getElem? (i := i - 1) ?_, rfl⟩
  rw [List.getElem?_drop, show 1 + (i - 1) = i by omega, List.getElem?_take_of_lt (by omega), he]

/-- Only the part of the log up to the index counts. -/
theorem ops_congr (hlogs : c'.rf.logs.take (i + 1) = c.rf.logs.take (i + 1)) (hi : h ≤ i) :
    c'.ops h = c.ops h := by
  have htake : c'.rf.logs.take (h + 1) = c.rf.logs.take (h + 1) := by
    have := congrArg (List.take (h + 1)) hlogs
    rwa [List.take_take, List.take_take, min_eq_left (by omega)] at this
  unfold ops
  rw [htake]

/-- One more delivery. -/
theorem largest_append (c : Replica me) (rf : Raft Op me) (kv : KVServer) (i : ℕ) :
    (Replica.mk rf kv (c.delivered ++ [i])).largest = max c.largest i := by
  unfold largest
  rw [List.foldl_append]
  rfl

/-! ## Deliveries without gaps -/

/-- A goroutine that is at most one index behind what was delivered, and holds committed
entries. -/
structure Follows (c : Replica me) (g : Applier Op) : Prop where
  pos : 1 ≤ g.startIdx
  next : g.startIdx + g.idx ≤ c.largest + 1
  sent : g.sent = true → g.startIdx + g.idx ≤ c.largest
  entries : ∀ {j : ℕ} {e}, g.entries[j]? = some e →
    g.startIdx + j ≤ c.rf.commitIndex ∧ c.rf.logs[g.startIdx + j]? = some e

/-- More deliveries and more committed entries leave a goroutine where it is. -/
theorem Follows.mono {c c' : Replica me} {g : Applier Op} (h : c.Follows g)
    (hlargest : c.largest ≤ c'.largest) (hcommit : c.rf.commitIndex ≤ c'.rf.commitIndex)
    (hlogs : ∀ i ≤ c.rf.commitIndex, c'.rf.logs[i]? = c.rf.logs[i]?) : c'.Follows g := by
  refine ⟨h.pos, h.next.trans (Nat.succ_le_succ hlargest), ?_, ?_⟩
  · intro hsent
    exact (h.sent hsent).trans hlargest
  · intro j e he
    obtain ⟨hle, hlog⟩ := h.entries he
    exact ⟨hle.trans hcommit, (hlogs _ hle).trans hlog⟩

/-- Every index up to the largest one has been delivered, and no goroutine can leave a
gap. -/
structure GapFree (c : Replica me) : Prop where
  commit_lt : c.rf.commitIndex < c.rf.logs.length
  disciplined : Disciplined (c.ops c.rf.commitIndex)
  largest_le : c.largest ≤ c.rf.commitIndex
  delivered : ∀ i, 1 ≤ i → i ≤ c.largest → i ∈ c.delivered
  replayed : Replayed c.kv (c.ops c.largest)
  lastApplied : c.rf.lastApplied ≤ c.largest
  applier : ∀ g ∈ c.rf.appliers, c.Follows g

theorem gapFree_init (me : Fin n) : GapFree (init me) where
  commit_lt := Nat.zero_lt_one
  disciplined := by
    show Disciplined []
    decide
  largest_le := le_rfl
  delivered := by
    intro i hpos hle
    exact absurd (hpos.trans hle) (Nat.not_succ_le_zero 0)
  replayed := replayed_start
  lastApplied := le_rfl
  applier := by intro g hg; cases hg

/-- A step of the key/value server alone. -/
theorem GapFree.of_kv (hi : GapFree c) {kv : KVServer} (hkv : Replayed kv (c.ops c.largest)) :
    GapFree { c with kv := kv } where
  commit_lt := hi.commit_lt
  disciplined := hi.disciplined
  largest_le := hi.largest_le
  delivered := hi.delivered
  replayed := hkv
  lastApplied := hi.lastApplied
  applier := fun g hg => (hi.applier g hg).mono le_rfl le_rfl fun _ _ => rfl

/-- The log changes behind the commit index. -/
theorem GapFree.setLogs (hi : GapFree c) {logs : List (LogEntry Op)}
    (hlogs : logs.take (c.rf.commitIndex + 1) = c.rf.logs.take (c.rf.commitIndex + 1)) :
    GapFree (c.withLogs logs) := by
  have hops : ∀ h ≤ c.rf.commitIndex, (c.withLogs logs).ops h = c.ops h := by
    intro h hle
    exact ops_congr hlogs hle
  have hget : ∀ i ≤ c.rf.commitIndex, logs[i]? = c.rf.logs[i]? := by
    intro i hle
    have := congrArg (fun l => l[i]?) hlogs
    rwa [List.getElem?_take_of_lt (by omega), List.getElem?_take_of_lt (by omega)] at this
  refine ⟨?_, ?_, hi.largest_le, hi.delivered, ?_, hi.lastApplied, ?_⟩
  · show c.rf.commitIndex < logs.length
    have hlen := congrArg List.length hlogs
    rw [List.length_take, List.length_take] at hlen
    have := hi.commit_lt
    omega
  · show Disciplined ((c.withLogs logs).ops c.rf.commitIndex)
    rw [hops _ le_rfl]
    exact hi.disciplined
  · show Replayed c.kv ((c.withLogs logs).ops c.largest)
    rw [hops _ hi.largest_le]
    exact hi.replayed
  · intro g hg
    exact (hi.applier g hg).mono le_rfl le_rfl hget

/-- **A new goroutine starts at most one index behind what was delivered.** -/
theorem GapFree.setCommitIndex (hi : GapFree c) {rf : Raft Op me}
    (hok : c.Steady (.setCommitIndex i)) (hstep : c.rf.setCommitIndex i = .ok rf) :
    GapFree { c with rf := rf } := by
  obtain ⟨hlt, hdisc⟩ := hok
  have hlast : c.rf.lastApplied < i := by
    have := hi.lastApplied
    have := hi.largest_le
    omega
  have hlen : i < c.rf.logs.length := by
    -- otherwise the slice is out of range and the call panics
    by_contra hge
    unfold Raft.setCommitIndex at hstep
    dsimp only at hstep
    rw [if_pos hlast, if_pos (by omega)] at hstep
    cases hstep
  rw [Raft.setCommitIndex_eq hlen] at hstep
  obtain rfl := Except.ok.inj hstep
  refine ⟨hlen, hdisc, hi.largest_le.trans hlt.le, hi.delivered, hi.replayed, hi.lastApplied, ?_⟩
  intro g hg
  have hg' : g ∈ c.rf.appliers ++
      [⟨c.rf.lastApplied + 1, (c.rf.logs.take (i + 1)).drop (c.rf.lastApplied + 1), 0, false⟩] := by
    have hmem : g ∈ (c.rf.committed i).appliers := hg
    unfold Raft.committed at hmem
    dsimp only at hmem
    rwa [if_pos hlast] at hmem
  rcases List.mem_append.mp hg' with hold | hnew
  · exact (hi.applier g hold).mono le_rfl hlt.le fun _ _ => rfl
  · obtain rfl := List.mem_singleton.mp hnew
    refine ⟨Nat.succ_pos _, Nat.succ_le_succ hi.lastApplied, ?_, ?_⟩
    · intro hsent
      cases hsent
    · intro j e he
      have he' : (c.rf.logs.take (i + 1))[c.rf.lastApplied + 1 + j]? = some e := by
        rw [← List.getElem?_drop]
        exact he
      obtain ⟨hj, -⟩ := List.getElem?_eq_some_iff.mp he'
      rw [List.length_take] at hj
      rw [List.getElem?_take_of_lt (by omega)] at he'
      exact ⟨by show c.rf.lastApplied + 1 + j ≤ i; omega, he'⟩

/-- A goroutine after one of them has changed. -/
theorem mem_modify {l : List (Applier Op)} {k : ℕ} {f : Applier Op → Applier Op}
    {g g' : Applier Op} (hg : l[k]? = some g) (hmem : g' ∈ l.modify k f) : g' ∈ l ∨ g' = f g := by
  rw [Raft.modify_eq_set f hg] at hmem
  exact List.mem_or_eq_of_mem_set hmem

/-- **What the key/value server does with a delivery**: it executes the entry when it is the
next one, and skips it when it was delivered before. -/
theorem GapFree.replayed_applyMsg (hi : GapFree c) {i : ℕ} {e : LogEntry Op} (hpos : 1 ≤ i)
    (hnext : i ≤ c.largest + 1) (hcommit : i ≤ c.rf.commitIndex)
    (hlog : c.rf.logs[i]? = some e) :
    Replayed (c.kv.applyMsg ⟨true, e.command, i⟩) (c.ops (max c.largest i)) := by
  rcases Nat.lt_or_ge c.largest i with hgt | hle
  · -- the next entry
    obtain rfl : i = c.largest + 1 := by omega
    have hops := ops_succ hlog
    have hdisc : Disciplined (c.ops (c.largest + 1)) := by
      obtain ⟨rest, hrest⟩ := ops_isPrefix (c := c) hcommit
      have hfull := hi.disciplined
      rw [← hrest] at hfull
      exact hfull.of_append
    rw [hops] at hdisc
    have hreplayed := hi.replayed.next hdisc
    rw [max_eq_right hgt.le, hops]
    exact hreplayed.applyMsg
  · rw [max_eq_left hle]
    exact (hi.replayed.again (mem_ops hpos hle hlog)).applyMsg

/-- **A delivery is of an entry delivered before, or of the next one.** -/
theorem GapFree.applySend (hi : GapFree c) {k : ℕ} {g : Applier Op} {msg : ApplyMsg Op}
    (hg : c.rf.appliers[k]? = some g) (hmsg : g.msg? = some msg) :
    GapFree ⟨c.rf.applySend k, c.kv.applyMsg msg, c.delivered ++ [msg.commandIndex]⟩ := by
  unfold Applier.msg? at hmsg
  split_ifs at hmsg with hs
  obtain ⟨e, he, rfl⟩ := Option.map_eq_some_iff.mp hmsg
  have hfollows := hi.applier g (List.mem_of_getElem? hg)
  have hpos := hfollows.pos
  have hnext := hfollows.next
  obtain ⟨hcommit, hlog⟩ := hfollows.entries he
  have hlargest := largest_append c (c.rf.applySend k)
    (c.kv.applyMsg ⟨true, e.command, g.startIdx + g.idx⟩) (g.startIdx + g.idx)
  have hkeep : ∀ g' ∈ c.rf.appliers, Follows ⟨c.rf.applySend k,
      c.kv.applyMsg ⟨true, e.command, g.startIdx + g.idx⟩,
      c.delivered ++ [g.startIdx + g.idx]⟩ g' := by
    intro g' hg'
    refine (hi.applier g' hg').mono ?_ le_rfl fun _ _ => rfl
    rw [hlargest]
    exact le_max_left _ _
  refine ⟨hi.commit_lt, hi.disciplined, ?_, ?_, ?_, ?_, ?_⟩
  · rw [hlargest]
    exact max_le hi.largest_le hcommit
  · intro i hposi hle
    rw [hlargest] at hle
    show i ∈ c.delivered ++ [_]
    rcases Nat.lt_or_ge c.largest i with hgt | hle'
    · have : i = g.startIdx + g.idx := by omega
      rw [this]
      exact List.mem_append_right _ (List.mem_singleton_self _)
    · exact List.mem_append_left _ (hi.delivered i hposi hle')
  · rw [hlargest]
    exact hi.replayed_applyMsg (by omega) hnext hcommit hlog
  · rw [hlargest]
    exact hi.lastApplied.trans (le_max_left _ _)
  · intro g' hg'
    rcases mem_modify hg hg' with hold | rfl
    · exact hkeep g' hold
    · have hg'' := hkeep g (List.mem_of_getElem? hg)
      refine ⟨hpos, hg''.next, ?_, hg''.entries⟩
      intro _
      rw [hlargest]
      exact le_max_right _ _

/-- A store writes an index that was delivered, possibly an old one. -/
theorem GapFree.applyStore (hi : GapFree c) {k : ℕ} {g : Applier Op}
    (hg : c.rf.appliers[k]? = some g) (hsent : g.sent = true) :
    GapFree { c with rf := c.rf.applyStore k g } := by
  have hfollows := hi.applier g (List.mem_of_getElem? hg)
  refine ⟨hi.commit_lt, hi.disciplined, hi.largest_le, hi.delivered, hi.replayed,
    hfollows.sent hsent, ?_⟩
  intro g' hg'
  rcases mem_modify hg hg' with hold | rfl
  · exact (hi.applier g' hold).mono le_rfl le_rfl fun _ _ => rfl
  · refine ⟨hfollows.pos, Nat.succ_le_succ (hfollows.sent hsent), ?_, hfollows.entries⟩
    intro hfalse
    cases hfalse

/-- **Every step of a steady run keeps deliveries free of gaps.** -/
theorem GapFree.step {a : ReplicaAction} (hi : GapFree c) (hok : c.Steady a)
    (hstep : c.step a = some c') : GapFree c' := by
  cases a with
  | setLogs logs =>
      obtain rfl := Option.some.inj hstep
      exact hi.setLogs hok
  | setCommitIndex i =>
      dsimp only [Replica.step] at hstep
      rcases hset : c.rf.setCommitIndex i with e | rf
      · rw [hset] at hstep
        cases hstep
      · rw [hset] at hstep
        obtain rfl := Option.some.inj hstep
        exact hi.setCommitIndex hok hset
  | applySend k =>
      dsimp only [Replica.step] at hstep
      split_ifs at hstep with hidle
      rcases hmsg : (c.rf.appliers[k]?).bind Applier.msg? with _ | msg
      · rw [hmsg] at hstep
        cases hstep
      · rw [hmsg] at hstep
        obtain rfl := Option.some.inj hstep
        obtain ⟨g, hg, hmsg⟩ := Option.bind_eq_some_iff.mp hmsg
        exact hi.applySend hg hmsg
  | applyStore k =>
      dsimp only [Replica.step] at hstep
      rcases hg : c.rf.appliers[k]? with _ | g
      · rw [hg] at hstep
        cases hstep
      · rw [hg] at hstep
        dsimp only at hstep
        split_ifs at hstep with hsent
        obtain rfl := Option.some.inj hstep
        exact hi.applyStore hg hsent
  | notify =>
      obtain ⟨kv, hkv, rfl⟩ := Option.map_eq_some_iff.mp hstep
      exact hi.of_kv (hi.replayed.notify hkv)
  | register index =>
      obtain rfl := Option.some.inj hstep
      exact hi.of_kv (hi.replayed.register index)
  | receive ch =>
      obtain ⟨⟨kv, notification⟩, hkv, rfl⟩ := Option.map_eq_some_iff.mp hstep
      exact hi.of_kv (hi.replayed.receive hkv)
  | unregister index =>
      obtain rfl := Option.some.inj hstep
      exact hi.of_kv (hi.replayed.unregister index)

end Replica

/-! ## The state of the key/value map along a run -/

/-- **The key/value state despite overlapping apply goroutines.**  At every moment of a
run of a replica whose committed entries do not change and whose committed log is
disciplined, with `setCommitIndex` called with increasing values: every index up
to the largest one delivered has been delivered, and `kv.db` is the result of
executing each distinct request of the entries up to that index once, in the
order of first occurrence, on the empty map. -/
theorem replica_db {n : ℕ} {me : Fin n} (r : (replicaSystem me).Run)
    (hok : r.Meets Replica.Steady) (k : ℕ) :
    (∀ i, 1 ≤ i → i ≤ (r.state k).largest → i ∈ (r.state k).delivered) ∧
      (r.state k).kv.db = kvState ((r.state k).ops (r.state k).largest) := by
  have hinv : (r.state k).GapFree :=
    r.invariant hok (Replica.gapFree_init me)
      (fun _ _ _ hi hsteady hstep => hi.step hsteady hstep) k
  exact ⟨hinv.delivered, hinv.replayed.db⟩

/-- Two goroutines overlap: the second one starts at index `1` again, because the first
has sent index `1` and not stored it yet, and `lastApplied` goes back from `2` to
`1` at the end.  The log holds two copies of one request. -/
def overlappingReplica : (replicaSystem (0 : Fin 1)).Run :=
  (replicaSystem (0 : Fin 1)).ofList
    [.setLogs [default, ⟨⟨"k", "a", .put, 1, 1⟩, 1⟩, ⟨⟨"k", "b", .append, 2, 1⟩, 1⟩,
        ⟨⟨"k", "a", .put, 1, 1⟩, 1⟩],
      .register 1, .setCommitIndex 1, .applySend 0, .setCommitIndex 3, .notify, .applySend 1,
      .notify, .receive 0, .notify, .applyStore 1, .applySend 1, .applyStore 1, .applyStore 0,
      .applySend 1]

/-- In that run index `1` is delivered twice, and the map is right all the same. -/
theorem replica_db_overlappingReplica :
    overlappingReplica.Meets Replica.Steady ∧
      (overlappingReplica.state 15).delivered = [1, 1, 2, 3] ∧
      (overlappingReplica.state 15).rf.lastApplied = 1 ∧
      (overlappingReplica.state 15).kv.db "k" = some "ab" ∧
      (overlappingReplica.state 15).kv.db
        = kvState ((overlappingReplica.state 15).ops (overlappingReplica.state 15).largest) := by
  have hok : overlappingReplica.Meets Replica.Steady :=
    TransitionSystem.meets_ofList (by decide)
  exact ⟨hok, by decide, by decide, by decide, (replica_db overlappingReplica hok 15).2⟩

end Mit6824
