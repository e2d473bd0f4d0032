/-
# In-order delivery on the apply channel

`setCommitIndex` takes the entries to send from `lastApplied + 1` on, while
`lastApplied` is written only later, by the goroutine that sends them.  A second
call that comes before the goroutine of the first has finished takes entries
that are sent already, or are about to be (`inOrderDelivery_fails`).

When `setCommitIndex` finds new entries only while no apply goroutine is
unfinished (`SerialApply`), at most the last goroutine of a server ever sends,
and every incarnation sends the indices `1, 2, 3, …` in this order
(`inOrderDelivery`).
-/
import Mit6824.RaftReplica

namespace Mit6824

/-! ## The goroutines of one server -/

section Appliers

variable {C : Type} {appliers : List (Applier C)} {g : Applier C} {last m : ℕ}

/-- All messages are commands. -/
theorem Applier.commandValid_of_msg? {msg : ApplyMsg C} (h : g.msg? = some msg) :
    msg.commandValid = true := by
  unfold Applier.msg? at h
  split_ifs at h with hs
  obtain ⟨entry, -, rfl⟩ := Option.map_eq_some_iff.mp h
  rfl

/-- The last goroutine, when the indices up to `m` have been sent: it is finished, or
about to send the next index, or about to store the index it has just sent. -/
inductive Applier.Stands (g : Applier C) (last m : ℕ) : Prop where
  | finished (hfin : g.Finished) (hsent : g.sent = false) (hlast : last = m)
  | sending (hfin : ¬ g.Finished) (hsent : g.sent = false) (hnext : g.startIdx + g.idx = m + 1)
      (hlast : last = m)
  | storing (hfin : ¬ g.Finished) (hsent : g.sent = true) (hnext : g.startIdx + g.idx = m)
      (hlast : last + 1 = m)

/-- Apply goroutines of which only the last may be unfinished. -/
structure Serial (appliers : List (Applier C)) (last m : ℕ) : Prop where
  old : ∀ {i : ℕ} {g}, appliers[i]? = some g → i + 1 < appliers.length →
    g.Finished ∧ g.sent = false
  newest : ∀ {i : ℕ} {g}, appliers[i]? = some g → i + 1 = appliers.length → g.Stands last m
  none : appliers = [] → last = m

theorem serial_nil : Serial ([] : List (Applier C)) 0 0 where
  old := by intro i g h; simp at h
  newest := by intro i g h; simp at h
  none := fun _ => rfl

/-- An unfinished goroutine is the last one. -/
theorem Serial.stands (h : Serial appliers last m) {k : ℕ} (hg : appliers[k]? = some g)
    (hbusy : ¬ g.Finished ∨ g.sent = true) : k + 1 = appliers.length ∧ g.Stands last m := by
  obtain ⟨hk, -⟩ := List.getElem?_eq_some_iff.mp hg
  rcases Nat.lt_or_eq_of_le (Nat.succ_le_of_lt hk) with hlt | heq
  · obtain ⟨hfin, hsent⟩ := h.old hg hlt
    rcases hbusy with hbusy | hbusy
    · exact absurd hfin hbusy
    · rw [hsent] at hbusy
      cases hbusy
  · exact ⟨heq, h.newest hg heq⟩

/-- When all goroutines are finished, `lastApplied` is the last index sent. -/
theorem Serial.of_finished (h : Serial appliers last m) (hall : ∀ g ∈ appliers, g.Finished) :
    last = m ∧ ∀ g ∈ appliers, g.sent = false := by
  have hlast : last = m := by
    rcases Nat.eq_zero_or_pos appliers.length with hzero | hpos
    · exact h.none (List.length_eq_zero_iff.mp hzero)
    · have hget : appliers[appliers.length - 1]? = some (appliers.get ⟨appliers.length - 1, by
          omega⟩) := List.getElem?_eq_getElem _
      cases h.newest hget (by omega) with
      | finished hfin hsent hlast => exact hlast
      | sending hfin hsent hnext hlast => exact hlast
      | storing hfin hsent hnext hlast => exact absurd (hall _ (List.mem_of_getElem? hget)) hfin
  refine ⟨hlast, fun g hg => ?_⟩
  by_contra hne
  obtain ⟨i, hi⟩ := List.mem_iff_getElem?.mp hg
  cases (h.stands hi (.inr (by simpa using hne))).2 with
  | finished hfin hsent hlast => exact hne hsent
  | sending hfin hsent hnext hlast => exact hne hsent
  | storing hfin hsent hnext hlast => exact hfin (hall g hg)

/-- A call of `setCommitIndex` that finds new entries only while nothing is unfinished
keeps the goroutines in series. -/
theorem Serial.commit (h : Serial appliers last m) {i : ℕ} {l : List (LogEntry C)}
    (hi : i < l.length) (hall : last < i → ∀ g ∈ appliers, g.Finished) :
    Serial (if last < i then
      appliers ++ [⟨last + 1, (l.take (i + 1)).drop (last + 1), 0, false⟩] else appliers)
      last m := by
  split_ifs with hlt
  · obtain ⟨hm, hsent⟩ := h.of_finished (hall hlt)
    refine ⟨?_, ?_, by simp⟩
    · intro j g hg hj
      rw [List.length_append, List.length_singleton] at hj
      rw [List.getElem?_append_left (by omega)] at hg
      have hmem := List.mem_of_getElem? hg
      exact ⟨hall hlt g hmem, hsent g hmem⟩
    · intro j g hg hj
      rw [List.length_append, List.length_singleton] at hj
      obtain rfl : j = appliers.length := by omega
      rw [List.getElem?_append_right le_rfl, Nat.sub_self] at hg
      obtain rfl := Option.some.inj hg
      -- the slice is not empty
      refine .sending ?_ rfl (by show last + 1 + 0 = m + 1; omega) hm
      unfold Applier.Finished
      simp only [List.length_drop, List.length_take]
      omega
  · exact h

/-- A move of the last goroutine. -/
theorem Serial.modify (h : Serial appliers last m) {k last' m' : ℕ} {f : Applier C → Applier C}
    (hg : appliers[k]? = some g) (hk : k + 1 = appliers.length) (hst : (f g).Stands last' m') :
    Serial (appliers.modify k f) last' m' where
  old := by
    intro j g' hg' hj
    rw [List.length_modify] at hj
    rw [List.getElem?_modify_ne _ _ (by omega)] at hg'
    exact h.old hg' hj
  newest := by
    intro j g' hg' hj
    rw [List.length_modify] at hj
    obtain rfl : j = k := by omega
    rw [List.getElem?_modify_eq, hg] at hg'
    obtain rfl := Option.some.inj hg'
    exact hst
  none := by
    intro hnil
    have hlen := congrArg List.length hnil
    rw [List.length_modify] at hlen
    simp only [List.length_nil] at hlen
    omega

/-- **A send is the next index.** -/
theorem Serial.send (h : Serial appliers last m) {k : ℕ} {msg : ApplyMsg C}
    (hg : appliers[k]? = some g) (hmsg : g.msg? = some msg) :
    msg.commandIndex = m + 1 ∧
      Serial (appliers.modify k fun g => { g with sent := true }) last (m + 1) := by
  unfold Applier.msg? at hmsg
  split_ifs at hmsg with hs
  obtain ⟨entry, hentry, rfl⟩ := Option.map_eq_some_iff.mp hmsg
  have hbusy : ¬ g.Finished := by
    obtain ⟨hlt, -⟩ := List.getElem?_eq_some_iff.mp hentry
    unfold Applier.Finished
    omega
  obtain ⟨hk, hst⟩ := h.stands hg (.inl hbusy)
  cases hst with
  | finished hfin hsent hlast => exact absurd hfin hbusy
  | storing hfin hsent hnext hlast => exact absurd hsent hs
  | sending hfin hsent hnext hlast =>
      exact ⟨hnext, h.modify hg hk (.storing hbusy rfl hnext (by omega))⟩

/-- A store brings `lastApplied` up to the index that was sent. -/
theorem Serial.store (h : Serial appliers last m) {k : ℕ} (hg : appliers[k]? = some g)
    (hsent : g.sent = true) :
    Serial (appliers.modify k fun g => { g with idx := g.idx + 1, sent := false })
      (g.startIdx + g.idx) m := by
  obtain ⟨hk, hst⟩ := h.stands hg (.inr hsent)
  cases hst with
  | finished hfin hs hlast => rw [hs] at hsent; cases hsent
  | sending hfin hs hnext hlast => rw [hs] at hsent; cases hsent
  | storing hfin hs hnext hlast =>
      apply h.modify hg hk
      -- the slice is used up, or the next entry is to be sent
      by_cases hend : g.entries.length ≤ g.idx + 1
      · exact .finished hend rfl hnext
      · exact .sending hend rfl (by show g.startIdx + (g.idx + 1) = m + 1; omega) hnext

end Appliers

namespace Raft

variable {n : ℕ} {C : Type} {me : Fin n}

/-- No apply goroutine is unfinished. -/
def allApplied (rf : Raft C me) : Prop :=
  ∀ g ∈ rf.appliers, g.Finished

instance (rf : Raft C me) : Decidable rf.allApplied :=
  inferInstanceAs (Decidable (∀ g ∈ rf.appliers, _))

/-- `AppendEntries` gets as far as the commit index of the leader, and finds there
entries to apply. -/
def followsCommit (rf : Raft C me) (args : AppendEntriesArgs n C) : Prop :=
  rf.currentTerm ≤ args.term ∧
    (rf.logs[args.prevLogIndex]?).map LogEntry.term = some args.prevLogTerm ∧
    rf.commitIndex < args.leaderCommit ∧ rf.lastApplied < args.leaderCommit

instance (rf : Raft C me) (args : AppendEntriesArgs n C) : Decidable (rf.followsCommit args) :=
  inferInstanceAs (Decidable (_ ∧ _))

/-- With this match recorded, some index above `commitIndex` and `lastApplied` is counted
on a majority. -/
def countsCommit (rf : Raft C me) (server : Fin n) (args : AppendEntriesArgs n C) : Prop :=
  ∃ i < rf.logs.length, rf.commitIndex < i ∧ rf.lastApplied < i ∧
    n / 2 < (rf.recordMatch server args).matchCount i

instance (rf : Raft C me) (server : Fin n) (args : AppendEntriesArgs n C) :
    Decidable (rf.countsCommit server args) :=
  inferInstanceAs (Decidable (∃ i < rf.logs.length, _))

end Raft

namespace Cluster

variable {n : ℕ} {C : Type} {c : Cluster n C} {a : Action n C} {s : Fin n}
  {rf : Raft C s} {msgs : List (Msg n C)} {events : List (Event n C)}

/-! ## The condition -/

/-- Handling this message finds new entries to apply only when nothing is unfinished. -/
def SerialMsg (c : Cluster n C) : Msg n C → Prop
  | .appendEntries _ _ _ dst args =>
      (c.nodes dst).followsCommit args → (c.nodes dst).allApplied
  | .appendEntriesReply src _ k _ reply => reply.success = true →
      ∀ call ∈ (c.nodes src).appends[k]?,
        (c.nodes src).countsCommit call.server call.args → (c.nodes src).allApplied
  | _ => True

instance (c : Cluster n C) : DecidablePred c.SerialMsg
  | .appendEntries _ _ _ dst args => inferInstanceAs (Decidable
      ((c.nodes dst).followsCommit args → (c.nodes dst).allApplied))
  | .appendEntriesReply src _ k _ reply => inferInstanceAs (Decidable (reply.success = true →
      ∀ call ∈ (c.nodes src).appends[k]?,
        (c.nodes src).countsCommit call.server call.args → (c.nodes src).allApplied))
  | .requestVote _ _ _ _ _ => .isTrue trivial
  | .requestVoteReply _ _ _ _ _ => .isTrue trivial

/-- A step that spawns an apply goroutine only when no other is unfinished. -/
def SerialApply (c : Cluster n C) : Action n C → Prop :=
  c.Delivers c.SerialMsg

instance (c : Cluster n C) (a : Action n C) : Decidable (c.SerialApply a) :=
  inferInstanceAs (Decidable (c.Delivers _ a))

/-! ## What an incarnation has delivered -/

/-- The index of a message on the apply channel of incarnation `e` of `s`. -/
def appliedIndex (s : Fin n) (e : ℕ) : Event n C → Option ℕ
  | .applied t e' msg => if t = s ∧ e' = e then some msg.commandIndex else none
  | _ => none

/-- The `CommandIndex` values that incarnation `e` of server `s` has sent on its
`applyCh`, in order. -/
def delivered (c : Cluster n C) (s : Fin n) (e : ℕ) : List ℕ :=
  c.history.filterMap (appliedIndex s e)

theorem delivered_put (t : Fin n) (e : ℕ) : (c.put s rf msgs events).delivered t e
    = c.delivered t e ++ events.filterMap (appliedIndex t e) := by
  unfold delivered
  rw [put_history, List.filterMap_append]

/-- A silent move sends nothing on any apply channel. -/
theorem Silent.appliedIndex_eq_nil (h : Silent msgs events) (t : Fin n) (e : ℕ) :
    events.filterMap (appliedIndex t e) = [] := by
  refine List.filterMap_eq_nil_iff.mpr fun ev hev => ?_
  cases ev with
  | ballot s epoch round term => rfl
  | granted voter term candidate => rfl
  | applied s epoch msg => exact absurd hev h.applied

/-- The current incarnation has sent `1, …, m`, and its goroutines are in series. -/
def SerialNode (rf : Raft C s) (sent : List ℕ) : Prop :=
  ∃ m, sent = List.range' 1 m ∧ Serial rf.appliers rf.lastApplied m

/-- Every incarnation has sent an initial part of `1, 2, 3, …`; a future one nothing. -/
structure SerialInv (c : Cluster n C) : Prop where
  current : ∀ s, SerialNode (c.nodes s) (c.delivered s (c.nodes s).epoch)
  past : ∀ s e, e < (c.nodes s).epoch → ∃ m, c.delivered s e = List.range' 1 m
  future : ∀ s e, (c.nodes s).epoch < e → c.delivered s e = []

theorem serialInv_init [Inhabited C] : SerialInv (Cluster.init n C) where
  current := fun _ => ⟨0, rfl, serial_nil⟩
  past := fun _ _ h => absurd h (Nat.not_lt_zero _)
  future := fun _ _ _ => rfl

/-- What a move of a server does to its goroutines and to what it has sent. -/
theorem SerialNode.move (h : ReplicaMove c a s rf msgs events) (hok : c.SerialApply a)
    {sent : List ℕ} (hi : SerialNode (c.nodes s) sent) :
    (rf.epoch = (c.nodes s).epoch + 1 ∧ SerialNode rf [] ∧ events = []) ∨
      (rf.epoch = (c.nodes s).epoch ∧
        SerialNode rf (sent ++ events.filterMap (appliedIndex s (c.nodes s).epoch))) := by
  obtain ⟨m, hsent, hserial⟩ := hi
  have hframe : Frame c s rf → events.filterMap (appliedIndex s (c.nodes s).epoch) = [] →
      rf.epoch = (c.nodes s).epoch ∧
        SerialNode rf (sent ++ events.filterMap (appliedIndex s (c.nodes s).epoch)) := by
    intro hf hnone
    rw [hnone, List.append_nil]
    exact ⟨hf.calls.epoch, m, hsent, by rw [hf.appliers, hf.lastApplied]; exact hserial⟩
  cases h with
  | idle a s rf msgs events hf hmatch hsilent =>
      exact .inr (hframe hf (hsilent.appliedIndex_eq_nil _ _))
  | reboot a s rf hepoch hstate hcommit happlied happliers happends hmatch =>
      refine .inl ⟨hepoch, ⟨0, rfl, ?_⟩, rfl⟩
      rw [happliers, happlied]
      exact serial_nil
  | elect m' s rf hf hmatch => exact .inr (hframe hf rfl)
  | send s k server i prev hstate hprev => exact .inr ⟨rfl, m, by simpa using hsent, hserial⟩
  | accept mid src e k dst args prev hm hle hprev hprevTerm =>
      obtain ⟨-, hlast, -, hepoch⟩ := (c.nodes s).accepted_replica args
      refine .inr ⟨hepoch, m, by simpa using hsent, ?_⟩
      rw [hlast]
      rcases (c.nodes s).accepted_commit args with ⟨-, heq⟩ | ⟨i, hmin, hlt, -, heq⟩
      · rw [heq]
        exact hserial
      · rw [heq]
        have hlen : 0 < (Raft.mergeLogs (c.nodes s).logs args).length :=
          List.length_pos_of_ne_nil (Raft.mergeLogs_ne_nil hprev)
        refine hserial.commit (by omega) fun hnew => hok _ rfl _ hm ⟨hle, ?_, hlt, by omega⟩
        rw [hprev, Option.map_some, hprevTerm]
  | record mid src k reply call hm hcall hsuccess =>
      obtain ⟨-, hlast, -, hepoch⟩ :=
        ((c.nodes s).callDone k call).matched_replica call.server call.args
      refine .inr ⟨hepoch, m, by simpa using hsent, ?_⟩
      rw [hlast]
      rcases ((c.nodes s).callDone k call).matched_commit call.server call.args with
        ⟨-, heq⟩ | ⟨i, hscan, -, heq⟩
      · rw [heq]
        exact hserial
      · rw [heq]
        obtain ⟨hgt, hle, hcount⟩ := Raft.commitScan_some hscan
        have hgt' : (c.nodes s).commitIndex < i := hgt
        have hle' : i ≤ (c.nodes s).logs.length - 1 := hle
        have hlt : i < (c.nodes s).logs.length := by omega
        exact hserial.commit hlt fun hnew => hok _ rfl _ hm hsuccess call hcall
          ⟨i, hlt, hgt', hnew, hcount⟩
  | append s k p hp => exact .inr ⟨rfl, m, by simpa using hsent, hserial⟩
  | applySend s k g msg hg hmsg =>
      obtain ⟨hindex, hserial'⟩ := hserial.send hg hmsg
      refine .inr ⟨rfl, m + 1, ?_, hserial'⟩
      have hevent : appliedIndex s (c.nodes s).epoch (.applied s (c.nodes s).epoch msg)
          = some (m + 1) := by
        show (if s = s ∧ _ = _ then some msg.commandIndex else none) = _
        rw [if_pos ⟨rfl, rfl⟩, hindex]
      rw [List.filterMap_cons_some hevent, List.filterMap_nil, hsent, List.range'_concat]
      simp [Nat.add_comm]
  | applyStore s k g hg hsent' => exact .inr ⟨rfl, m, by simpa using hsent, hserial.store hg hsent'⟩

/-- A message on an apply channel belongs to the incarnation that moves. -/
theorem ReplicaMove.appliedIndex_eq_nil (h : ReplicaMove c a s rf msgs events) {t : Fin n} {e : ℕ}
    (hne : t ≠ s ∨ e ≠ (c.nodes s).epoch) : events.filterMap (appliedIndex t e) = [] := by
  cases h with
  | idle a s rf msgs events hf hmatch hsilent =>
      exact hsilent.appliedIndex_eq_nil t e
  | applySend s k g msg hg hmsg =>
      refine List.filterMap_cons_none ?_
      unfold appliedIndex
      refine if_neg ?_
      rintro ⟨rfl, rfl⟩
      simp at hne
  | _ => rfl

/-- A move adds nothing to what any other incarnation has sent. -/
theorem ReplicaMove.delivered_put_of_ne (h : ReplicaMove c a s rf msgs events) {t : Fin n} {e : ℕ}
    (hne : t ≠ s ∨ e ≠ (c.nodes s).epoch) :
    (c.put s rf msgs events).delivered t e = c.delivered t e := by
  rw [delivered_put, h.appliedIndex_eq_nil hne, List.append_nil]

/-- Incarnations to come have sent nothing after the move, if they had not before. -/
theorem ReplicaMove.future_put (h : ReplicaMove c a s rf msgs events)
    (hle : (c.nodes s).epoch ≤ rf.epoch)
    (hfuture : ∀ t e, (c.nodes t).epoch < e → c.delivered t e = []) :
    ∀ t e, ((c.put s rf msgs events).nodes t).epoch < e →
      (c.put s rf msgs events).delivered t e = [] := by
  refine (forall_put (P := fun t node => ∀ e, node.epoch < e →
    (c.put s rf msgs events).delivered t e = [])).mpr ⟨fun e he => ?_, fun t ht e he => ?_⟩
  · rw [h.delivered_put_of_ne (.inr (by omega))]
    exact hfuture s e (by omega)
  · rw [h.delivered_put_of_ne (.inl ht)]
    exact hfuture t e he

/-- **One server at a time.**  A relation between a server and what its current incarnation has
sent holds of all servers after the move, if the server that moves has it: with nothing sent
when it restarts, with what the move sends added when it does not. -/
theorem ReplicaMove.current_put (h : ReplicaMove c a s rf msgs events)
    {P : (t : Fin n) → Raft C t → List ℕ → Prop}
    (hcurrent : ∀ t, P t (c.nodes t) (c.delivered t (c.nodes t).epoch))
    (hfuture : ∀ t e, (c.nodes t).epoch < e → c.delivered t e = [])
    (hmove : (rf.epoch = (c.nodes s).epoch + 1 ∧ P s rf []) ∨
      rf.epoch = (c.nodes s).epoch ∧
        P s rf ((c.put s rf msgs events).delivered s (c.nodes s).epoch)) :
    ∀ t, P t ((c.put s rf msgs events).nodes t)
      ((c.put s rf msgs events).delivered t ((c.put s rf msgs events).nodes t).epoch) := by
  refine (forall_put (P := fun t node => P t node
    ((c.put s rf msgs events).delivered t node.epoch))).mpr ⟨?_, fun t ht => ?_⟩
  · rcases hmove with ⟨hepoch, hnode⟩ | ⟨hepoch, hnode⟩
    · rw [h.delivered_put_of_ne (.inr (by omega)), hfuture s rf.epoch (by omega)]
      exact hnode
    · rw [hepoch]
      exact hnode
  · rw [h.delivered_put_of_ne (.inl ht)]
    exact hcurrent t

/-- **Every step that meets the condition keeps all incarnations in order.** -/
theorem SerialInv.put (hi : SerialInv c) (h : ReplicaMove c a s rf msgs events)
    (hok : c.SerialApply a) : SerialInv (c.put s rf msgs events) := by
  have hmove := SerialNode.move h hok (hi.current s)
  rw [← delivered_put s _] at hmove
  refine ⟨?_, ?_, ?_⟩
  · refine h.current_put (P := fun _ => SerialNode) hi.current hi.future ?_
    exact hmove.imp_left fun ⟨hepoch, hnode, _⟩ => ⟨hepoch, hnode⟩
  · refine (forall_put (P := fun t node => ∀ e, e < node.epoch →
      ∃ m, (c.put s rf msgs events).delivered t e = List.range' 1 m)).mpr
        ⟨fun e he => ?_, fun t ht e he => ?_⟩
    · rcases hmove with ⟨hepoch, -, rfl⟩ | ⟨hepoch, -⟩
      · rw [delivered_put, List.filterMap_nil, List.append_nil]
        rcases Nat.lt_or_eq_of_le (Nat.le_of_lt_succ (hepoch ▸ he)) with hlt | rfl
        · exact hi.past s e hlt
        · obtain ⟨m, hm, -⟩ := hi.current s
          exact ⟨m, hm⟩
      · rw [h.delivered_put_of_ne (.inr (by omega))]
        exact hi.past s e (by omega)
    · rw [h.delivered_put_of_ne (.inl ht)]
      exact hi.past t e he
  · refine h.future_put ?_ hi.future
    rcases hmove with ⟨hepoch, -⟩ | ⟨hepoch, -⟩ <;> omega

end Cluster

/-! ## Delivery along a run -/

section Runs

variable {n : ℕ} {C : Type} [Inhabited C]

theorem serialInv_run (r : (raftSystem n C).Run) (hok : r.Meets Cluster.SerialApply) (k : ℕ) :
    (r.state k).SerialInv := by
  refine r.invariant hok Cluster.serialInv_init ?_ k
  intro c a c' hi hserial hstep
  obtain ⟨t, rf, msgs, events, rfl, hmove⟩ := Cluster.step_move hstep
  exact hi.put hmove.replica hserial

/-- **In-order exactly-once delivery.**  In every run in which `setCommitIndex` finds new
entries only while no apply goroutine of its server is unfinished, the indices
that an incarnation has sent on its apply channel are `1, 2, …, m`, in this
order. -/
theorem inOrderDelivery (r : (raftSystem n C).Run) (hok : r.Meets Cluster.SerialApply)
    (k : ℕ) (s : Fin n) (e : ℕ) : ∃ m, (r.state k).delivered s e = List.range' 1 m := by
  have hinv := serialInv_run r hok k
  rcases lt_trichotomy e ((r.state k).nodes s).epoch with hlt | rfl | hgt
  · exact hinv.past s e hlt
  · obtain ⟨m, hm, -⟩ := hinv.current s
    exact ⟨m, hm⟩
  · exact ⟨0, hinv.future s e hgt⟩

/-- Server `0` commits and applies two entries one after the other, and stores each
index before the next commit. -/
def serialApplies : (raftSystem 3 ℕ).Run :=
  (raftSystem 3 ℕ).ofList
    [.electionTimeout 0, .deliver 0, .deliver 2, .startRead 0 7, .startAppend 0 0,
      .sendHeartbeat 0 0, .deliver 3, .deliver 4, .applySend 0 0, .applyStore 0 0,
      .startRead 0 8, .startAppend 0 0, .heartbeatTimeout 0, .sendHeartbeat 0 1,
      .deliver 5, .deliver 6, .applySend 0 1]

/-- In that run both indices are sent, in order. -/
theorem inOrderDelivery_serialApplies :
    serialApplies.Meets Cluster.SerialApply ∧
      (serialApplies.state 17).delivered 0 0 = [1, 2] ∧
      ∀ k, ∃ m, (serialApplies.state k).delivered 0 0 = List.range' 1 m := by
  have hok : serialApplies.Meets Cluster.SerialApply :=
    TransitionSystem.meets_ofList (by decide)
  exact ⟨hok, by decide, fun k => inOrderDelivery serialApplies hok k 0 0⟩

/-- The same commits, but the second one comes before the first goroutine has stored
`lastApplied`: its own goroutine starts at index `1` again. -/
def overlappingApplies : (raftSystem 3 ℕ).Run :=
  (raftSystem 3 ℕ).ofList
    [.electionTimeout 0, .deliver 0, .deliver 2, .startRead 0 7, .startAppend 0 0,
      .sendHeartbeat 0 0, .deliver 3, .deliver 4, .applySend 0 0,
      .startRead 0 8, .startAppend 0 0, .heartbeatTimeout 0, .sendHeartbeat 0 1,
      .deliver 5, .deliver 6, .applySend 0 1]

/-- Without the condition, index `1` is sent twice. -/
theorem inOrderDelivery_fails :
    ¬ ∀ (r : (raftSystem 3 ℕ).Run) (k : ℕ) (s : Fin 3) (e : ℕ),
      ∃ m, (r.state k).delivered s e = List.range' 1 m := by
  intro h
  obtain ⟨m, hm⟩ := h overlappingApplies 16 0 0
  have htwice : (overlappingApplies.state 16).delivered 0 0 = [1, 1] := by decide
  rw [htwice] at hm
  have hlen := congrArg List.length hm
  rw [List.length_range'] at hlen
  obtain rfl : m = 2 := hlen.symm
  exact absurd hm (by decide)

end Runs

end Mit6824
