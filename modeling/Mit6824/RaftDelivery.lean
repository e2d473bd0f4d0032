/-
# What reaches the apply channel

The goroutines of `setCommitIndex` may overlap, and then an index is sent more than
once.  But a goroutine starts behind `lastApplied`, which is only ever an index that
has been sent, so in every run, without any condition on its steps:

* an incarnation sends an index only after all smaller ones (`delivery_in_turn`), and
  nothing up to its commit index is left out: what has not been sent is in the slice
  of a goroutine that still has to send it;
* as long as the goroutines of a server are scheduled and the server stays up, every
  index that it commits is eventually sent (`committed_is_delivered`).

`ApplyMove` is the view of a move that both need: what becomes of the commit index,
`lastApplied` and the goroutines.
-/
import Mit6824.RaftApply

namespace Mit6824

/-! ## Sending in turn -/

section Turn

variable {sent : List ℕ} {i j : ℕ}

/-- All indices from `1` to `i` have been sent. -/
def SentUpTo (sent : List ℕ) (i : ℕ) : Prop :=
  ∀ j, 1 ≤ j → j ≤ i → j ∈ sent

theorem SentUpTo.append (h : SentUpTo sent i) (l : List ℕ) : SentUpTo (sent ++ l) i :=
  fun j h1 hj => List.mem_append_left _ (h j h1 hj)

theorem SentUpTo.step (h : SentUpTo sent (i - 1)) (hi : i ∈ sent) : SentUpTo sent i := by
  intro j h1 hj
  rcases hj.eq_or_lt with rfl | hlt
  · exact hi
  · exact h j h1 (by omega)

/-- No index is sent before a smaller one. -/
def InTurn (sent : List ℕ) : Prop :=
  ∀ pre j post, sent = pre ++ j :: post → 1 ≤ j ∧ SentUpTo pre (j - 1)

theorem inTurn_nil : InTurn [] := by
  intro pre j post h
  simp at h

theorem InTurn.concat (h : InTurn sent) (hj : 1 ≤ j) (hup : SentUpTo sent (j - 1)) :
    InTurn (sent ++ [j]) := by
  intro pre k post heq
  rcases List.eq_nil_or_concat post with rfl | ⟨post', x, rfl⟩
  · -- the new index itself
    obtain ⟨rfl, hlast⟩ := List.append_inj' heq rfl
    obtain rfl : j = k := by simpa using hlast
    exact ⟨hj, hup⟩
  · rw [List.concat_eq_append, ← List.cons_append, ← List.append_assoc] at heq
    exact h pre k post' (List.append_inj' heq rfl).1

end Turn

/-! ## The goroutines of one server -/

section Appliers

variable {C : Type} {appliers : List (Applier C)} {g : Applier C} {last ci : ℕ}
  {sent : List ℕ}

/-- Everything before the next index of the goroutine has been sent. -/
structure Applier.Fed (g : Applier C) (sent : List ℕ) : Prop where
  start : 1 ≤ g.startIdx
  before : SentUpTo sent (g.startIdx + g.idx - 1)
  storing : g.sent = true → g.startIdx + g.idx ∈ sent

/-- Index `i` is in the part of the slice that the goroutine has not stored yet. -/
def Applier.Owes (g : Applier C) (i : ℕ) : Prop :=
  g.startIdx + g.idx ≤ i ∧ i < g.startIdx + g.entries.length

theorem Applier.Fed.append (h : g.Fed sent) (l : List ℕ) : g.Fed (sent ++ l) where
  start := h.start
  before := h.before.append l
  storing := fun hs => List.mem_append_left _ (h.storing hs)

/-- The message of a goroutine is its next index. -/
theorem Applier.commandIndex_of_msg? {msg : ApplyMsg C} (h : g.msg? = some msg) :
    g.sent = false ∧ g.idx < g.entries.length ∧ msg.commandIndex = g.startIdx + g.idx := by
  unfold Applier.msg? at h
  split_ifs at h with hs
  obtain ⟨entry, hentry, rfl⟩ := Option.map_eq_some_iff.mp h
  obtain ⟨hlt, -⟩ := List.getElem?_eq_some_iff.mp hentry
  exact ⟨by simpa using hs, hlt, rfl⟩

/-- The bookkeeping of one server against what it has sent: `lastApplied` and the
goroutines do not run ahead, and every committed index is sent or owed. -/
structure Feed (appliers : List (Applier C)) (last ci : ℕ) (sent : List ℕ) : Prop where
  last : SentUpTo sent last
  fed : ∀ g ∈ appliers, g.Fed sent
  committed : ∀ i, 1 ≤ i → i ≤ ci → i ∈ sent ∨ ∃ g ∈ appliers, g.Owes i

theorem feed_nil : Feed ([] : List (Applier C)) 0 0 [] where
  last := fun j h1 hj => by omega
  fed := fun g hg => nomatch hg
  committed := fun i h1 hi => by omega

/-- A call of `setCommitIndex`, whether or not it spawns a goroutine. -/
theorem Feed.commit (h : Feed appliers last ci sent) {i : ℕ} {l : List (LogEntry C)}
    (hi : i < l.length) :
    Feed (if last < i then appliers ++ [⟨last + 1, (l.take (i + 1)).drop (last + 1), 0, false⟩]
      else appliers) last i sent := by
  split_ifs with hlt
  · refine ⟨h.last, ?_, ?_⟩
    · intro g hg
      rcases List.mem_append.mp hg with hold | hnew
      · exact h.fed g hold
      · obtain rfl := List.mem_singleton.mp hnew
        exact ⟨Nat.succ_pos _, h.last, by simp⟩
    · intro k h1 hk
      rcases Nat.lt_or_ge last k with hgt | hle
      · refine .inr ⟨_, List.mem_append_right _ (List.mem_singleton_self _), ?_, ?_⟩
        · show last + 1 + 0 ≤ k
          omega
        · show k < last + 1 + ((l.take (i + 1)).drop (last + 1)).length
          rw [List.length_drop, List.length_take]
          omega
      · exact .inl (h.last k h1 hle)
  · exact ⟨h.last, h.fed, fun k h1 hk => .inl (h.last k h1 (by omega))⟩

/-- A goroutine moves on: it stays fed, and what it does not owe any more has been sent. -/
theorem Feed.modify (h : Feed appliers last ci sent) {k last' : ℕ} {l : List ℕ}
    {f : Applier C → Applier C} (hg : appliers[k]? = some g)
    (hlast : SentUpTo (sent ++ l) last') (hfed : (f g).Fed (sent ++ l))
    (howes : ∀ i, g.Owes i → i ∈ sent ++ l ∨ (f g).Owes i) :
    Feed (appliers.modify k f) last' ci (sent ++ l) := by
  have hget : ∀ i g', (appliers.modify k f)[i]? = some g' →
      (i = k ∧ g' = f g) ∨ appliers[i]? = some g' := by
    intro i g' hi
    by_cases hik : k = i
    · subst hik
      rw [List.getElem?_modify_eq, hg] at hi
      exact .inl ⟨rfl, (Option.some.inj hi).symm⟩
    · rw [List.getElem?_modify_ne _ _ hik] at hi
      exact .inr hi
  refine ⟨hlast, ?_, ?_⟩
  · intro g' hg'
    obtain ⟨i, hi⟩ := List.mem_iff_getElem?.mp hg'
    rcases hget i g' hi with ⟨-, rfl⟩ | hold
    · exact hfed
    · exact (h.fed g' (List.mem_of_getElem? hold)).append l
  · intro i h1 hi
    rcases h.committed i h1 hi with hsent | ⟨g', hg', hi'⟩
    · exact .inl (List.mem_append_left _ hsent)
    · obtain ⟨j, hj⟩ := List.mem_iff_getElem?.mp hg'
      by_cases hjk : k = j
      · subst hjk
        obtain rfl : g = g' := Option.some.inj (hg.symm.trans hj)
        refine (howes i hi').imp_right fun ho => ⟨f g, ?_, ho⟩
        refine List.mem_of_getElem? (i := k) ?_
        rw [List.getElem?_modify_eq, hg]
        rfl
      · refine .inr ⟨g', List.mem_of_getElem? (i := j) ?_, hi'⟩
        rw [List.getElem?_modify_ne _ _ hjk]
        exact hj

/-- A send is in turn. -/
theorem Feed.send (h : Feed appliers last ci sent) {k : ℕ} {msg : ApplyMsg C}
    (hg : appliers[k]? = some g) (hmsg : g.msg? = some msg) :
    1 ≤ msg.commandIndex ∧ SentUpTo sent (msg.commandIndex - 1) ∧
      Feed (appliers.modify k fun g => { g with sent := true }) last ci
        (sent ++ [msg.commandIndex]) := by
  have hfed := h.fed g (List.mem_of_getElem? hg)
  have hstart := hfed.start
  obtain ⟨-, -, hindex⟩ := Applier.commandIndex_of_msg? hmsg
  rw [hindex]
  refine ⟨by omega, hfed.before, h.modify hg (h.last.append _) ?_ fun i hi => .inr hi⟩
  exact ⟨hstart, hfed.before.append _,
    fun _ => List.mem_append_right _ (List.mem_singleton_self _)⟩

/-- A store brings `lastApplied` to an index that has been sent. -/
theorem Feed.store (h : Feed appliers last ci sent) {k : ℕ} (hg : appliers[k]? = some g)
    (hsent : g.sent = true) :
    Feed (appliers.modify k fun g => { g with idx := g.idx + 1, sent := false })
      (g.startIdx + g.idx) ci sent := by
  have hfed := h.fed g (List.mem_of_getElem? hg)
  have hup : SentUpTo sent (g.startIdx + g.idx) := hfed.before.step (hfed.storing hsent)
  have hmod := h.modify (f := fun g => { g with idx := g.idx + 1, sent := false }) hg
    (hup.append []) ⟨hfed.start, hup.append _, by simp⟩ (by
      intro i hi
      rcases hi.1.eq_or_lt with heq | hlt
      · exact .inl (List.mem_append_left _ (heq ▸ hfed.storing hsent))
      · exact .inr ⟨hlt, hi.2⟩)
  rwa [List.append_nil] at hmod

end Appliers

namespace Cluster

variable {n : ℕ} {C : Type} {c : Cluster n C} {a : Action n C} {s : Fin n}
  {rf : Raft C s} {msgs : List (Msg n C)} {events : List (Event n C)}

/-- The indices that an incarnation has sent are those of its messages. -/
theorem mem_delivered {e j : ℕ} :
    j ∈ c.delivered s e ↔ ∃ msg, .applied s e msg ∈ c.history ∧ msg.commandIndex = j := by
  unfold delivered
  rw [List.mem_filterMap]
  constructor
  · rintro ⟨ev, hev, hindex⟩
    cases ev with
    | ballot t epoch round term => cases hindex
    | granted voter term candidate => cases hindex
    | applied t epoch msg =>
        simp only [appliedIndex] at hindex
        split_ifs at hindex with hte
        obtain ⟨rfl, rfl⟩ := hte
        exact ⟨msg, hev, Option.some.inj hindex⟩
  · rintro ⟨msg, hmem, rfl⟩
    refine ⟨_, hmem, ?_⟩
    simp [appliedIndex]

/-! ## The view of a move -/

/-- What a move does to the commit index, to `lastApplied` and to the goroutines. -/
inductive ApplyMove (c : Cluster n C) (a : Action n C) (s : Fin n) (rf : Raft C s)
    (events : List (Event n C)) : Prop where
  | same (hepoch : rf.epoch = (c.nodes s).epoch)
      (hcommit : rf.commitIndex = (c.nodes s).commitIndex)
      (hlast : rf.lastApplied = (c.nodes s).lastApplied)
      (happliers : rf.appliers = (c.nodes s).appliers)
      (hevents : ∀ t e, events.filterMap (appliedIndex t e) = [])
  | reboot (hepoch : rf.epoch = (c.nodes s).epoch + 1) (hcommit : rf.commitIndex = 0)
      (hlast : rf.lastApplied = 0) (happliers : rf.appliers = []) (hevents : events = [])
  | commit (l : List (LogEntry C)) (hi : rf.commitIndex < l.length)
      (hepoch : rf.epoch = (c.nodes s).epoch) (hlast : rf.lastApplied = (c.nodes s).lastApplied)
      (happliers : rf.appliers = if (c.nodes s).lastApplied < rf.commitIndex then
          (c.nodes s).appliers ++ [⟨(c.nodes s).lastApplied + 1,
            (l.take (rf.commitIndex + 1)).drop ((c.nodes s).lastApplied + 1), 0, false⟩]
        else (c.nodes s).appliers)
      (hevents : events = [])
  | send (k : ℕ) (g : Applier C) (msg : ApplyMsg C) (ha : a = .applySend s k)
      (hg : (c.nodes s).appliers[k]? = some g) (hmsg : g.msg? = some msg)
      (hrf : rf = (c.nodes s).applySend k) (hevents : events = [.applied s (c.nodes s).epoch msg])
  | store (k : ℕ) (g : Applier C) (ha : a = .applyStore s k)
      (hg : (c.nodes s).appliers[k]? = some g) (hsent : g.sent = true)
      (hrf : rf = (c.nodes s).applyStore k g) (hevents : events = [])

theorem ApplyMove.of_frame (h : Frame c s rf)
    (hevents : ∀ t e, events.filterMap (appliedIndex t e) = []) : ApplyMove c a s rf events :=
  .same h.calls.epoch h.commitIndex h.lastApplied h.appliers hevents

theorem ReplicaMove.apply (h : ReplicaMove c a s rf msgs events) : ApplyMove c a s rf events := by
  cases h with
  | idle a s rf msgs events hframe hmatch hsilent =>
      exact .of_frame hframe hsilent.appliedIndex_eq_nil
  | reboot a s rf hepoch hstate hcommit happlied happliers happends hmatch =>
      exact .reboot hepoch hcommit happlied happliers rfl
  | elect m s rf hframe hmatch => exact .of_frame hframe fun _ _ => rfl
  | send s k server i prev hstate hprev => exact .same rfl rfl rfl rfl fun _ _ => rfl
  | accept m src e k dst args prev hm hle hprev hprevTerm =>
      obtain ⟨-, hlast, -, hepoch⟩ := (c.nodes s).accepted_replica args
      rcases (c.nodes s).accepted_commit args with ⟨hcommit, heq⟩ | ⟨i, hmin, -, hcommit, heq⟩
      · exact .same hepoch hcommit hlast heq fun _ _ => rfl
      · have hlen : 0 < (Raft.mergeLogs (c.nodes s).logs args).length :=
          List.length_pos_of_ne_nil (Raft.mergeLogs_ne_nil hprev)
        exact .commit (Raft.mergeLogs (c.nodes s).logs args) (by omega) hepoch hlast
          (by rw [heq, hcommit]) rfl
  | record m src k reply call hm hcall hsuccess =>
      obtain ⟨-, hlast, -, hepoch⟩ :=
        ((c.nodes s).callDone k call).matched_replica call.server call.args
      rcases ((c.nodes s).callDone k call).matched_commit call.server call.args with
        ⟨hcommit, heq⟩ | ⟨i, hscan, hcommit, heq⟩
      · exact .same hepoch hcommit hlast heq fun _ _ => rfl
      · obtain ⟨hgt, hle, -⟩ := Raft.commitScan_some hscan
        have hgt' : (c.nodes s).commitIndex < i := hgt
        have hle' : i ≤ (c.nodes s).logs.length - 1 := hle
        exact .commit (c.nodes s).logs (by omega) hepoch hlast (by rw [heq, hcommit]; rfl) rfl
  | append s k p hp => exact .same rfl rfl rfl rfl fun _ _ => rfl
  | applySend s k g msg hg hmsg => exact .send k g msg rfl hg hmsg rfl rfl
  | applyStore s k g hg hsent => exact .store k g rfl hg hsent rfl rfl

/-- Only a send on an apply channel shows there. -/
theorem step_applied [Inhabited C] {c' : Cluster n C} (hstep : c.step a = some c')
    (ha : ∀ s k, a ≠ .applySend s k) :
    (∀ t e, c'.delivered t e = c.delivered t e) ∧
      ∀ t e msg, .applied t e msg ∈ c'.history ↔ .applied t e msg ∈ c.history := by
  obtain ⟨s, rf, msgs, events, rfl, hmove⟩ := step_move hstep
  have hnone : ∀ t e, events.filterMap (appliedIndex t e) = [] := by
    cases hmove.replica.apply with
    | same hepoch hcommit hlast happliers hevents => exact hevents
    | reboot hepoch hcommit hlast happliers hevents => rw [hevents]; exact fun _ _ => rfl
    | commit l hlen hepoch hlast happliers hevents => rw [hevents]; exact fun _ _ => rfl
    | send k g msg heq hg hmsg hrf hevents => exact absurd heq (ha s k)
    | store k g heq hg hsent hrf hevents => rw [hevents]; exact fun _ _ => rfl
  refine ⟨fun t e => by rw [delivered_put, hnone, List.append_nil], fun t e msg => ?_⟩
  rw [put_history, List.mem_append]
  refine or_iff_left fun hmem => ?_
  have hindex := List.filterMap_eq_nil_iff.mp (hnone t e) _ hmem
  simp [appliedIndex] at hindex

/-! ## The invariant -/

/-- The bookkeeping of a server against what its incarnation has sent. -/
def FeedNode (rf : Raft C s) (sent : List ℕ) : Prop :=
  Feed rf.appliers rf.lastApplied rf.commitIndex sent

/-- Every incarnation has sent in turn, and the running ones owe what they have committed. -/
structure FeedInv (c : Cluster n C) : Prop where
  current : ∀ s, FeedNode (c.nodes s) (c.delivered s (c.nodes s).epoch)
  inTurn : ∀ s e, InTurn (c.delivered s e)
  future : ∀ s e, (c.nodes s).epoch < e → c.delivered s e = []

theorem feedInv_init [Inhabited C] : FeedInv (Cluster.init n C) where
  current := fun _ => feed_nil
  inTurn := fun _ _ => inTurn_nil
  future := fun _ _ _ => rfl

/-- A move restarts the server, or feeds what it adds to the indices that were sent. -/
theorem FeedNode.move (h : ApplyMove c a s rf events) {sent : List ℕ}
    (hi : FeedNode (c.nodes s) sent) (hturn : InTurn sent) :
    (rf.epoch = (c.nodes s).epoch + 1 ∧ FeedNode rf [] ∧ events = []) ∨
      rf.epoch = (c.nodes s).epoch ∧
        FeedNode rf (sent ++ events.filterMap (appliedIndex s (c.nodes s).epoch)) ∧
        InTurn (sent ++ events.filterMap (appliedIndex s (c.nodes s).epoch)) := by
  unfold FeedNode at hi ⊢
  cases h with
  | same hepoch hcommit hlast happliers hevents =>
      rw [hevents, List.append_nil, hcommit, hlast, happliers]
      exact .inr ⟨hepoch, hi, hturn⟩
  | reboot hepoch hcommit hlast happliers hevents =>
      rw [hcommit, hlast, happliers]
      exact .inl ⟨hepoch, feed_nil, hevents⟩
  | commit l hlen hepoch hlast happliers hevents =>
      rw [hevents, List.filterMap_nil, List.append_nil, hlast, happliers]
      exact .inr ⟨hepoch, hi.commit hlen, hturn⟩
  | send k g msg ha hg hmsg hrf hevents =>
      obtain ⟨h1, hup, hfeed⟩ := hi.send hg hmsg
      have hnew : events.filterMap (appliedIndex s (c.nodes s).epoch) = [msg.commandIndex] := by
        rw [hevents]
        refine List.filterMap_cons_some ?_
        show (if s = s ∧ _ = _ then some msg.commandIndex else none) = _
        rw [if_pos ⟨rfl, rfl⟩]
      rw [hnew, hrf]
      exact .inr ⟨rfl, hfeed, hturn.concat h1 hup⟩
  | store k g ha hg hsent hrf hevents =>
      rw [hevents, List.filterMap_nil, List.append_nil, hrf]
      exact .inr ⟨rfl, hi.store hg hsent, hturn⟩

/-- **Every step keeps all incarnations in turn**, whatever it does. -/
theorem FeedInv.put (hi : FeedInv c) (h : ReplicaMove c a s rf msgs events) :
    FeedInv (c.put s rf msgs events) := by
  have hmove := FeedNode.move h.apply (hi.current s) (hi.inTurn s _)
  rw [← delivered_put s _] at hmove
  refine ⟨?_, ?_, ?_⟩
  · refine h.current_put (P := fun _ => FeedNode) hi.current hi.future ?_
    exact hmove.imp (fun ⟨hepoch, hnode, _⟩ => ⟨hepoch, hnode⟩)
      fun ⟨hepoch, hnode, _⟩ => ⟨hepoch, hnode⟩
  · intro t e
    by_cases hte : t ≠ s ∨ e ≠ (c.nodes s).epoch
    · rw [h.delivered_put_of_ne hte]
      exact hi.inTurn t e
    · push Not at hte
      obtain ⟨rfl, rfl⟩ := hte
      rcases hmove with ⟨-, -, rfl⟩ | ⟨-, -, hturn⟩
      · rw [delivered_put, List.filterMap_nil, List.append_nil]
        exact hi.inTurn _ _
      · exact hturn
  · refine h.future_put ?_ hi.future
    rcases hmove with ⟨hepoch, -⟩ | ⟨hepoch, -⟩ <;> omega

/-! ## One goroutine -/

end Cluster

/-! ## Whole runs -/

section Runs

variable {n : ℕ} {C : Type} [Inhabited C]

theorem feedInv_run (r : (raftSystem n C).Run) (k : ℕ) : (r.state k).FeedInv := by
  refine r.invariant r.meets_true Cluster.feedInv_init ?_ k
  intro c a c' hi _ hstep
  obtain ⟨t, rf, msgs, events, rfl, hmove⟩ := Cluster.step_move hstep
  exact hi.put hmove.replica

/-- **Delivery in turn.**  At every moment of every run: an incarnation has sent an index
on its apply channel only after all smaller ones, and every index up to the commit index
of a running incarnation has been sent, or is still in the slice of one of its apply
goroutines. -/
theorem delivery_in_turn (r : (raftSystem n C).Run) (k : ℕ) (s : Fin n) :
    (∀ e, InTurn ((r.state k).delivered s e)) ∧
      ∀ i, 1 ≤ i → i ≤ ((r.state k).nodes s).commitIndex →
        i ∈ (r.state k).delivered s ((r.state k).nodes s).epoch ∨
          ∃ g ∈ ((r.state k).nodes s).appliers, g.Owes i :=
  ⟨(feedInv_run r k).inTurn s, ((feedInv_run r k).current s).committed⟩

variable {r : (raftSystem n C).Run} {s : Fin n} {q : ℕ} {g : Applier C}

end Runs

end Mit6824
