/-
# The order in which requests and replies arrive

Several append requests of one leader to one follower are usually under way, and the
network may deliver them, and the replies to them, in any order.

* On the follower the order does not matter: when every request carries a window of the
  leader's log and every request is accepted, log and commit index at the end depend
  only on which requests there were (`windows_commute`).  `AfterWindows` is the invariant: the
  log is as it was while all windows lie inside the common prefix, and the leader's log
  cut at the largest end of a window from then on.
* On the leader it does: a successful reply assigns `matchIndex`, so an old reply that
  comes late lowers it.  `matchIndex` is the largest acknowledged index exactly when the
  replies come in order; the commit index does not depend on the order
  (`acks_in_order_iff`).  In `overtakenAck` a leader forgets that a follower stores its
  entry.
-/
import Mit6824.RaftCommit

namespace Mit6824

/-- The index of the last entry that a request carries, or of the entry before it when it
carries none: what a leader records when the request succeeds. -/
def AppendEntriesArgs.lastIndex {n : ℕ} {C : Type} (args : AppendEntriesArgs n C) : ℕ :=
  args.prevLogIndex + args.entries.length

namespace Raft

variable {n : ℕ} {C : Type} {me : Fin n} {rf rf' : Raft C me} {L F G : List (LogEntry C)}
  {args : AppendEntriesArgs n C} {xs ys : List (AppendEntriesArgs n C)}

/-! ## Requests on the follower -/

/-- A request of term `T` that carries a window of the log `L`, behind an entry of `L`. -/
structure Window (L : List (LogEntry C)) (T : ℕ) (args : AppendEntriesArgs n C) : Prop where
  term : args.term = T
  prev : ∃ e, L[args.prevLogIndex]? = some e ∧ e.term = args.prevLogTerm
  bound : args.lastIndex < L.length
  entries : (L.take (args.lastIndex + 1)).drop (args.prevLogIndex + 1) = args.entries
  commit : args.leaderCommit ≤ args.lastIndex

/-- The requests one after the other; `none` as soon as one is not accepted. -/
def acceptAll (rf : Raft C me) : List (AppendEntriesArgs n C) → Option (Raft C me)
  | [] => some rf
  | args :: reqs =>
      match rf.appendEntries args with
      | .ok (rf, reply) => if reply.success then rf.acceptAll reqs else none
      | .error _ => none

/-- A successful reply means that the previous entry has matched. -/
theorem appendEntries_success {reply : AppendEntriesReply}
    (h : rf.appendEntries args = .ok (rf', reply)) (hok : reply.success = true) :
    rf' = rf.accepted args ∧
      ∃ prev, rf.logs[args.prevLogIndex]? = some prev ∧ prev.term = args.prevLogTerm := by
  by_cases ht : args.term < rf.currentTerm
  · have hstale : rf.appendEntries args = .ok (rf.persist, { term := rf.currentTerm }) := if_pos ht
    rw [hstale] at h
    cases h
    cases hok
  · by_cases hacc : ∃ prev, rf.logs[args.prevLogIndex]? = some prev ∧ prev.term = args.prevLogTerm
    · obtain ⟨prev, hprev, hterm⟩ := hacc
      rw [appendEntries_eq (not_lt.mp ht) hprev hterm] at h
      cases h
      exact ⟨rfl, prev, hprev, hterm⟩
    · push Not at hacc
      rcases appendEntries_of_mismatch (not_lt.mp ht) hacc with ⟨reply', hno, -, heq⟩ | herr
      · rw [heq] at h
        cases h
        rw [hno] at hok
        cases hok
      · rw [herr] at h
        cases h

/-- A log that agrees with `L` agrees with every beginning of `L`. -/
theorem Agree.take_right (h : Agree G L) (k : ℕ) : Agree G (L.take k) := by
  intro i e e' he he' hterm
  have hik : i < k := by
    obtain ⟨hlt, -⟩ := List.getElem?_eq_some_iff.mp he'
    rw [List.length_take] at hlt
    omega
  rw [List.getElem?_take_of_lt hik] at he'
  rw [h i e e' he he' hterm, List.take_take, min_eq_left (by omega)]

/-- Two beginnings of one log agree. -/
theorem agree_take (L : List (LogEntry C)) (k : ℕ) : Agree (L.take k) L := by
  intro i e e' he he' _
  have hik : i < k := by
    obtain ⟨hlt, -⟩ := List.getElem?_eq_some_iff.mp he
    rw [List.length_take] at hlt
    omega
  rw [List.take_take, min_eq_left (by omega)]

/-- **What an accepted window does to the log**: nothing when the leader's log up to the
end of the window is there, else the log becomes exactly that. -/
theorem mergeLogs_window (h : Agree G L) (hw : Window L args.term args) {prev : LogEntry C}
    (hprev : G[args.prevLogIndex]? = some prev) (hterm : prev.term = args.prevLogTerm) :
    (L.take (args.lastIndex + 1) <+: G ∧ mergeLogs G args = G) ∨
      (¬ L.take (args.lastIndex + 1) <+: G ∧
        mergeLogs G args = L.take (args.lastIndex + 1)) := by
  obtain ⟨e, he, heterm⟩ := hw.prev
  have hle : args.prevLogIndex ≤ args.lastIndex := Nat.le_add_right _ _
  have hm : (L.take (args.lastIndex + 1))[args.prevLogIndex]? = some e := by
    rw [List.getElem?_take_of_lt (by omega), he]
  have hmatch : Matches G args.prevLogIndex e := by
    unfold Matches
    rw [hprev, Option.map_some, hterm, heterm]
  exact mergeLogs_cases (h.take_right _) hm hmatch hw.entries

/-- The log `G` after windows of `L` on the log `F`. -/
def AfterWindows (L F : List (LogEntry C)) (reqs : List (AppendEntriesArgs n C))
    (G : List (LogEntry C)) : Prop :=
  (∀ a ∈ reqs, L.take (a.lastIndex + 1) <+: F) ∧ G = F ∨
    ∃ b ∈ reqs, (∀ a ∈ reqs, a.lastIndex ≤ b.lastIndex) ∧
      ¬ L.take (b.lastIndex + 1) <+: F ∧ G = L.take (b.lastIndex + 1)

/-- A log after windows agrees with the leader's. -/
theorem AfterWindows.agree (h : AfterWindows L F xs G) (hagree : Agree F L) : Agree G L := by
  rcases h with ⟨-, rfl⟩ | ⟨b, -, -, -, rfl⟩
  · exact hagree
  · exact agree_take L _

/-- **One more window**: the log is one after windows again. -/
theorem AfterWindows.step (h : AfterWindows L F xs G) (hagree : Agree F L)
    (hw : Window L args.term args) {prev : LogEntry C} (hprev : G[args.prevLogIndex]? = some prev)
    (hterm : prev.term = args.prevLogTerm) :
    AfterWindows L F (xs ++ [args]) (mergeLogs G args) := by
  have hshorter : ∀ {i j : ℕ}, i ≤ j → L.take (i + 1) <+: L.take (j + 1) :=
    fun hij => List.take_prefix_take_left (by omega)
  have hmerge := mergeLogs_window (h.agree hagree) hw hprev hterm
  rcases h with ⟨hin, rfl⟩ | ⟨b, hb, hmax, hout, rfl⟩
  · rcases hmerge with ⟨hpre, heq⟩ | ⟨hpre, heq⟩
    · -- one more window inside the common prefix
      refine .inl ⟨fun a ha => ?_, heq⟩
      rcases List.mem_append.mp ha with ha | ha
      · exact hin a ha
      · rw [List.mem_singleton.mp ha]
        exact hpre
    · -- the first window that leaves it is the largest so far
      refine .inr ⟨args, by simp, fun a ha => ?_, hpre, heq⟩
      rcases List.mem_append.mp ha with ha | ha
      · by_contra hlt
        exact hpre ((hshorter (by omega)).trans (hin a ha))
      · rw [List.mem_singleton.mp ha]
  · rcases hmerge with ⟨hpre, heq⟩ | ⟨hpre, heq⟩
    · refine .inr ⟨b, by simp [hb], fun a ha => ?_, hout, heq⟩
      rcases List.mem_append.mp ha with ha | ha
      · exact hmax a ha
      · have hlen := hpre.length_le
        have hbound := hw.bound
        rw [List.mem_singleton.mp ha]
        rw [List.length_take, List.length_take] at hlen
        omega
    · have hlt : b.lastIndex < args.lastIndex := by
        by_contra hge
        exact hpre (hshorter (by omega))
      refine .inr ⟨args, by simp, fun a ha => ?_, fun hF => ?_, heq⟩
      · rcases List.mem_append.mp ha with ha | ha
        · exact (hmax a ha).trans hlt.le
        · rw [List.mem_singleton.mp ha]
      · exact hout ((hshorter hlt.le).trans hF)

/-- A log after windows depends only on which windows there were. -/
theorem AfterWindows.unique {G' : List (LogEntry C)} (h : AfterWindows L F xs G)
    (h' : AfterWindows L F ys G') (hmem : ∀ a, a ∈ ys ↔ a ∈ xs) : G' = G := by
  rcases h with ⟨hin, rfl⟩ | ⟨b, hb, hmax, hout, rfl⟩
  · rcases h' with ⟨-, rfl⟩ | ⟨b, hb, -, hout, -⟩
    · rfl
    · exact absurd (hin b ((hmem b).mp hb)) hout
  · rcases h' with ⟨hin, -⟩ | ⟨b', hb', hmax', -, rfl⟩
    · exact absurd (hin b ((hmem b).mpr hb)) hout
    · have heq : b'.lastIndex = b.lastIndex :=
        le_antisymm (hmax b' ((hmem b').mp hb')) (hmax' b ((hmem b).mpr hb))
      rw [heq]

/-- A log after windows keeps every entry that agrees with the leader's. -/
theorem AfterWindows.keeps (h : AfterWindows L F xs G) (hagree : Agree F L) {i : ℕ}
    {e e' : LogEntry C} (he : F[i]? = some e) (he' : L[i]? = some e')
    (hterm : e.term = e'.term) : G[i]? = some e := by
  rcases h with ⟨-, rfl⟩ | ⟨b, -, -, hout, rfl⟩
  · exact he
  · have htake := hagree i e e' he he' hterm
    -- an entry behind the cut would put the cut inside the common prefix
    have hi : i < b.lastIndex + 1 := by
      by_contra hge
      refine hout (List.IsPrefix.trans ?_ (List.take_prefix (i + 1) F))
      rw [htake]
      exact List.take_prefix_take_left (by omega)
    rw [List.getElem?_take_of_lt hi, ← List.getElem?_take_of_lt (Nat.lt_succ_self i), ← htake,
      List.getElem?_take_of_lt (Nat.lt_succ_self i), he]

/-- The commit indices that a follower has seen. -/
def SeenCommits (c : ℕ) (reqs : List (AppendEntriesArgs n C)) : Set ℕ :=
  insert c {i | ∃ a ∈ reqs, a.leaderCommit = i}

/-- The commit index of an accepted window is its own or the old one. -/
theorem accepted_commitIndex_window (h : Agree rf.logs L) (hw : Window L args.term args)
    {prev : LogEntry C} (hprev : rf.logs[args.prevLogIndex]? = some prev)
    (hterm : prev.term = args.prevLogTerm) :
    (rf.accepted args).commitIndex = max rf.commitIndex args.leaderCommit := by
  have hlen : args.lastIndex + 1 ≤ (mergeLogs rf.logs args).length := by
    have hbound := hw.bound
    have htake : (L.take (args.lastIndex + 1)).length = args.lastIndex + 1 := by
      rw [List.length_take]
      omega
    rcases mergeLogs_window h hw hprev hterm with ⟨hpre, heq⟩ | ⟨-, heq⟩
    · rw [heq, ← htake]
      exact hpre.length_le
    · rw [heq, htake]
  have hcommit := hw.commit
  rw [accepted_commitIndex]
  split_ifs with hlt
  · rw [min_eq_left (by omega), max_eq_right hlt.le]
  · rw [max_eq_left (not_lt.mp hlt)]

/-- The greatest commit index so far, with one more request. -/
theorem isGreatest_commits_concat {c i : ℕ} (h : IsGreatest (SeenCommits c xs) i) :
    IsGreatest (SeenCommits c (xs ++ [args])) (max i args.leaderCommit) := by
  constructor
  · rcases max_choice i args.leaderCommit with hmax | hmax
    · rw [hmax]
      rcases h.1 with hc | ⟨a, ha, hai⟩
      · exact .inl hc
      · exact .inr ⟨a, by simp [ha], hai⟩
    · rw [hmax]
      exact .inr ⟨args, by simp, rfl⟩
  · rintro j (rfl | ⟨a, ha, rfl⟩)
    · exact (h.2 (.inl rfl)).trans (le_max_left _ _)
    · rcases List.mem_append.mp ha with ha | ha
      · exact (h.2 (.inr ⟨a, ha, rfl⟩)).trans (le_max_left _ _)
      · rw [List.mem_singleton.mp ha]
        exact le_max_right _ _

/-- **A run of accepted windows**: the log is settled and the commit index is the
greatest one seen. -/
theorem acceptAll_settled {T c : ℕ} (hagree : Agree F L) :
    ∀ {ys : List (AppendEntriesArgs n C)} {rf : Raft C me} {xs : List (AppendEntriesArgs n C)},
      rf.currentTerm = T → AfterWindows L F xs rf.logs →
      IsGreatest (SeenCommits c xs) rf.commitIndex →
      (∀ a ∈ ys, Window L T a) → rf.acceptAll ys = some rf' →
      AfterWindows L F (xs ++ ys) rf'.logs ∧
        IsGreatest (SeenCommits c (xs ++ ys)) rf'.commitIndex := by
  intro ys
  induction ys with
  | nil =>
      intro rf xs _ hlog hcommit _ h
      obtain rfl := Option.some.inj h
      rw [List.append_nil]
      exact ⟨hlog, hcommit⟩
  | cons args ys ih =>
      intro rf xs hT hlog hcommit hw h
      rw [acceptAll] at h
      rcases hreply : rf.appendEntries args with rf₁ | ⟨rf₁, reply⟩
      · simp [hreply] at h
      · rw [hreply] at h
        dsimp only at h
        split_ifs at h with hok
        obtain ⟨rfl, prev, hprev, hterm⟩ := appendEntries_success hreply hok
        have hwin : Window L args.term args := by
          have := hw args (List.mem_cons_self ..)
          rwa [this.term]
        have hargs : args.term = T := (hw args (List.mem_cons_self ..)).term
        have hsettled := hlog.step hagree hwin hprev hterm
        rw [← (accepted_core rf args).2.2.2.2.2] at hsettled
        have hgreatest : IsGreatest (SeenCommits c (xs ++ [args]))
            (max rf.commitIndex args.leaderCommit) := isGreatest_commits_concat hcommit
        rw [← accepted_commitIndex_window (hlog.agree hagree) hwin hprev hterm] at hgreatest
        have hrest := ih (by rw [accepted_currentTerm, hT, hargs, max_self]) hsettled hgreatest
          (fun a ha => hw a (List.mem_cons_of_mem _ ha)) h
        rwa [List.append_assoc] at hrest

/-- A beginning of a list of accepted requests is accepted. -/
theorem acceptAll_append (rf : Raft C me) (xs ys : List (AppendEntriesArgs n C)) :
    rf.acceptAll (xs ++ ys) = (rf.acceptAll xs).bind fun rf => rf.acceptAll ys := by
  induction xs generalizing rf with
  | nil => rfl
  | cons args xs ih =>
      rw [List.cons_append, acceptAll, acceptAll]
      split
      · split_ifs
        · exact ih _
        · rfl
      · rfl

/-- **Accepted requests commute and are idempotent.**  A follower whose log agrees with
the leader's log `L` accepts all requests of a list, each a window of `L` of the
follower's current term.  Then its log is unchanged when all windows lie inside the
common prefix, and else `L` cut at the largest end of a window; log and commit index are
the same after any other list of the same requests, in any order and with any
repetitions, that is accepted as well; and at no point in between has an entry that
agrees with `L` been removed. -/
theorem windows_commute (hagree : Agree rf.logs L) (hw : ∀ a ∈ xs, Window L rf.currentTerm a)
    (h : rf.acceptAll xs = some rf') :
    ((∀ a ∈ xs, L.take (a.lastIndex + 1) <+: rf.logs) → rf'.logs = rf.logs) ∧
    ((∃ a ∈ xs, ¬ L.take (a.lastIndex + 1) <+: rf.logs) →
      ∀ b ∈ xs, (∀ a ∈ xs, a.lastIndex ≤ b.lastIndex) → rf'.logs = L.take (b.lastIndex + 1)) ∧
    (∀ ys, (∀ a, a ∈ ys ↔ a ∈ xs) → ∀ rf'', rf.acceptAll ys = some rf'' →
      rf''.logs = rf'.logs ∧ rf''.commitIndex = rf'.commitIndex) ∧
    (∀ ys, ys <+: xs → ∃ rf'', rf.acceptAll ys = some rf'' ∧
      ∀ (i : ℕ) (e e' : LogEntry C), rf.logs[i]? = some e → L[i]? = some e' →
        e.term = e'.term → rf''.logs[i]? = some e) := by
  have hstart : AfterWindows L rf.logs ([] : List (AppendEntriesArgs n C)) rf.logs :=
    .inl ⟨by simp, rfl⟩
  have hcommit : IsGreatest (SeenCommits rf.commitIndex ([] : List (AppendEntriesArgs n C)))
      rf.commitIndex := by
    refine ⟨.inl rfl, ?_⟩
    rintro j (rfl | ⟨a, ha, -⟩)
    · exact le_rfl
    · cases ha
  have hrun : ∀ {ys : List (AppendEntriesArgs n C)} {rf'' : Raft C me},
      (∀ a ∈ ys, Window L rf.currentTerm a) → rf.acceptAll ys = some rf'' →
      AfterWindows L rf.logs ys rf''.logs ∧
        IsGreatest (SeenCommits rf.commitIndex ys) rf''.commitIndex :=
    fun hys hrun => acceptAll_settled hagree rfl hstart hcommit hys hrun
  obtain ⟨hsettled, hgreatest⟩ := hrun hw h
  refine ⟨fun hin => ?_, ?_, fun ys hys rf'' hrf'' => ?_, fun ys hys => ?_⟩
  · rcases hsettled with ⟨-, heq⟩ | ⟨b, hb, -, hout, -⟩
    · exact heq
    · exact absurd (hin b hb) hout
  · rintro ⟨a, ha, hout⟩ b hb hmax
    rcases hsettled with ⟨hin, -⟩ | ⟨b', hb', hmax', -, heq⟩
    · exact absurd (hin a ha) hout
    · rw [heq, le_antisymm (hmax b' hb') (hmax' b hb)]
  · obtain ⟨hsettled', hgreatest'⟩ := hrun (fun a ha => hw a ((hys a).mp ha)) hrf''
    have hset : SeenCommits rf.commitIndex ys = SeenCommits rf.commitIndex xs := by
      unfold SeenCommits
      simp only [hys]
    rw [hset] at hgreatest'
    exact ⟨hsettled.unique hsettled' hys, hgreatest'.unique hgreatest⟩
  · obtain ⟨zs, rfl⟩ := hys
    rw [acceptAll_append] at h
    obtain ⟨rf'', hrf'', -⟩ := Option.bind_eq_some_iff.mp h
    obtain ⟨hsettled', -⟩ := hrun (fun a ha => hw a (List.mem_append_left _ ha)) hrf''
    exact ⟨rf'', hrf'', fun i e e' he he' hterm => hsettled'.keeps hagree he he' hterm⟩

/-- A follower of term `3` that has entries of an old leader from index `2` on. -/
def windowFollower : Raft ℕ (1 : Fin 3) :=
  { (make 0 none : Raft ℕ (1 : Fin 3)) with
    currentTerm := 3
    logs := [⟨0, 0⟩, ⟨7, 1⟩, ⟨11, 2⟩] }

/-- The log of its leader. -/
def windowLog : List (LogEntry ℕ) := [⟨0, 0⟩, ⟨7, 1⟩, ⟨8, 3⟩, ⟨9, 3⟩]

/-- The window at indices `1` and `2` of that log. -/
def shortWindow : AppendEntriesArgs 3 ℕ := ⟨3, 0, 0, 0, [⟨7, 1⟩, ⟨8, 3⟩], 1⟩

/-- The window at indices `2` and `3`. -/
def longWindow : AppendEntriesArgs 3 ℕ := ⟨3, 0, 1, 1, [⟨8, 3⟩, ⟨9, 3⟩], 2⟩

/-- Whichever window comes first, and however often, the follower ends up with the
leader's log. -/
theorem windows_commute_overlap :
    ∃ rf' rf'' : Raft ℕ (1 : Fin 3),
      windowFollower.acceptAll [shortWindow, longWindow] = some rf' ∧
      windowFollower.acceptAll [longWindow, shortWindow, longWindow] = some rf'' ∧
      rf'.logs = windowLog ∧ rf''.logs = rf'.logs ∧ rf''.commitIndex = rf'.commitIndex := by
  have hagree : Agree windowFollower.logs windowLog := by
    intro i e e' he he' hterm
    have hi : i < 3 := (List.getElem?_eq_some_iff.mp he).1
    interval_cases i <;> cases he <;> cases he' <;> first | rfl | exact absurd hterm (by decide)
  have hw : ∀ a ∈ [shortWindow, longWindow], Window windowLog windowFollower.currentTerm a := by
    intro a ha
    rcases List.mem_pair.mp ha with rfl | rfl
    · exact ⟨rfl, ⟨_, rfl, rfl⟩, by decide, rfl, by decide⟩
    · exact ⟨rfl, ⟨_, rfl, rfl⟩, by decide, rfl, by decide⟩
  obtain ⟨rf', hrf'⟩ : ∃ rf', windowFollower.acceptAll [shortWindow, longWindow] = some rf' :=
    ⟨_, rfl⟩
  obtain ⟨rf'', hrf''⟩ : ∃ rf'',
      windowFollower.acceptAll [longWindow, shortWindow, longWindow] = some rf'' := ⟨_, rfl⟩
  obtain ⟨-, hcut, hsame, -⟩ := windows_commute hagree hw hrf'
  have hlogs := hcut ⟨longWindow, by simp, by decide⟩ longWindow (by simp) (by decide)
  exact ⟨rf', rf'', hrf', hrf'', hlogs, hsame _ (by simp) rf'' hrf''⟩

/-! ## Replies on the leader -/

/-- The successful replies of `server` to these requests, one after the other. -/
def acknowledge (rf : Raft C me) (server : Fin n) (reqs : List (AppendEntriesArgs n C)) :
    Section C me (Raft C me) :=
  reqs.foldlM (fun rf args => rf.appendReply server args { success := true }) rf

/-- The leader after these replies. -/
def acknowledged (rf : Raft C me) (server : Fin n) (reqs : List (AppendEntriesArgs n C)) :
    Raft C me :=
  reqs.foldl (fun rf args => rf.matched server args) rf

/-- Successful replies never make the leader panic. -/
theorem acknowledge_eq (rf : Raft C me) (server : Fin n) (xs : List (AppendEntriesArgs n C)) :
    rf.acknowledge server xs = .ok (rf.acknowledged server xs) := by
  induction xs generalizing rf with
  | nil => rfl
  | cons args xs ih =>
      unfold acknowledge
      rw [List.foldlM_cons, appendReply_of_success rfl]
      exact ih (rf.matched server args)

theorem acknowledged_concat (rf : Raft C me) (server : Fin n) (xs : List (AppendEntriesArgs n C))
    (args : AppendEntriesArgs n C) :
    rf.acknowledged server (xs ++ [args]) = (rf.acknowledged server xs).matched server args :=
  List.foldl_append

/-- What replies leave alone. -/
theorem acknowledged_core (rf : Raft C me) (server : Fin n) (xs : List (AppendEntriesArgs n C)) :
    (rf.acknowledged server xs).state = rf.state ∧
      (rf.acknowledged server xs).currentTerm = rf.currentTerm ∧
      (rf.acknowledged server xs).logs = rf.logs := by
  induction xs using List.reverseRecOn with
  | nil => exact ⟨rfl, rfl, rfl⟩
  | append_singleton xs args ih =>
      obtain ⟨ni, mi, ci, ap, hshape⟩ := (rf.acknowledged server xs).matched_shape server args
      rw [acknowledged_concat, hshape]
      exact ih

/-- `matchIndex` changes at the server that replies only, and is what the last reply
says. -/
theorem acknowledged_matchIndex (rf : Raft C me) (server : Fin n)
    (xs : List (AppendEntriesArgs n C)) (args : AppendEntriesArgs n C) :
    (rf.acknowledged server (xs ++ [args])).matchIndex
      = Function.update rf.matchIndex server args.lastIndex := by
  have hrest : ∀ (xs : List (AppendEntriesArgs n C)) i,
      Function.update (rf.acknowledged server xs).matchIndex server i
        = Function.update rf.matchIndex server i := by
    intro xs i
    induction xs using List.reverseRecOn with
    | nil => rfl
    | append_singleton xs args ih =>
        rw [acknowledged_concat, (matched_replica _ _ _).1]
        exact (Function.update_idem ..).trans ih
  rw [acknowledged_concat, (matched_replica _ _ _).1]
  exact hrest xs args.lastIndex

/-- More than half of the peers store index `i` when `server` stores up to `v`. -/
def Counted (rf : Raft C me) (server : Fin n) (v i : ℕ) : Prop :=
  i ≤ rf.logs.length - 1 ∧
    n / 2 < (List.finRange n).countP fun p => i ≤ Function.update rf.matchIndex server v p

/-- **What a reply commits**: everything up to an index that it lets the leader count. -/
theorem le_matched_commitIndex_iff (server : Fin n) {j : ℕ} :
    j ≤ (rf.matched server args).commitIndex ↔
      j ≤ rf.commitIndex ∨ ∃ i, j ≤ i ∧ rf.Counted server args.lastIndex i := by
  have hcount : ∀ i, n / 2 < (rf.recordMatch server args).matchCount i ↔
      n / 2 < (List.finRange n).countP
        fun p => i ≤ Function.update rf.matchIndex server args.lastIndex p := fun _ => Iff.rfl
  unfold matched
  rcases hscan : (rf.recordMatch server args).commitScan (rf.logs.length - 1) with _ | m
  · refine ⟨.inl, ?_⟩
    rintro (hj | ⟨i, hji, hlen, hi⟩)
    · exact hj
    · by_contra hlt
      have hgt : rf.commitIndex < i := by
        have : ¬ j ≤ rf.commitIndex := hlt
        omega
      exact commitScan_none hscan hgt hlen ((hcount i).mpr hi)
  · obtain ⟨hgt, hle, hm⟩ := commitScan_some hscan
    have hgt' : rf.commitIndex < m := hgt
    constructor
    · intro hj
      exact .inr ⟨m, hj, hle, (hcount m).mp hm⟩
    · rintro (hj | ⟨i, hji, hlen, hi⟩)
      · exact hj.trans hgt'.le
      · by_contra hlt
        have hmi : m < i := by
          have : ¬ j ≤ m := hlt
          omega
        exact commitScan_max hscan hmi hlen ((hcount i).mpr hi)

/-- **What replies commit**, in whatever order. -/
theorem le_acknowledged_commitIndex_iff (server : Fin n) {j : ℕ} :
    j ≤ (rf.acknowledged server xs).commitIndex ↔
      j ≤ rf.commitIndex ∨ ∃ a ∈ xs, ∃ i, j ≤ i ∧ rf.Counted server a.lastIndex i := by
  induction xs using List.reverseRecOn with
  | nil =>
      simp only [List.not_mem_nil, false_and, exists_false, or_false]
      exact Iff.rfl
  | append_singleton xs args ih =>
      -- the other peers' indices and the log are those of the beginning
      have hcounted : ∀ i, (rf.acknowledged server xs).Counted server args.lastIndex i ↔
          rf.Counted server args.lastIndex i := by
        intro i
        have hmatch := acknowledged_matchIndex rf server xs args
        rw [acknowledged_concat, (matched_replica _ _ _).1] at hmatch
        have hmatch' : Function.update (rf.acknowledged server xs).matchIndex server
            args.lastIndex = Function.update rf.matchIndex server args.lastIndex := hmatch
        unfold Counted
        rw [(acknowledged_core rf server xs).2.2, hmatch']
      rw [acknowledged_concat, le_matched_commitIndex_iff, ih]
      simp only [hcounted, List.mem_append, List.mem_singleton, or_and_right, exists_or,
        exists_eq_left, or_assoc]

/-- The last acknowledgement counts. -/
theorem acknowledged_matchIndex_concat (rf : Raft C me) (server : Fin n)
    (ys : List (AppendEntriesArgs n C)) (a : AppendEntriesArgs n C) :
    (rf.acknowledged server (ys ++ [a])).matchIndex server = a.lastIndex := by
  rw [acknowledged_matchIndex, Function.update_self]

/-- In the order of the indices, `matchIndex` is the largest one so far. -/
theorem isGreatest_matchIndex (rf : Raft C me) (server : Fin n) {ys : List (AppendEntriesArgs n C)}
    (hsorted : ys.Pairwise fun a b => a.lastIndex ≤ b.lastIndex) (hne : ys ≠ []) :
    IsGreatest {i | ∃ a ∈ ys, a.lastIndex = i} ((rf.acknowledged server ys).matchIndex server) := by
  obtain ⟨zs, b, rfl⟩ := (List.eq_nil_or_concat' ys).resolve_left hne
  rw [acknowledged_matchIndex_concat]
  refine ⟨⟨b, by simp, rfl⟩, ?_⟩
  rintro i ⟨a, ha, rfl⟩
  rcases List.mem_append.mp ha with ha | ha
  · exact (List.pairwise_append.mp hsorted).2.2 a ha b (List.mem_singleton_self b)
  · rw [List.mem_singleton.mp ha]

/-- If `matchIndex` is the largest one at every point, the replies come in order. -/
theorem pairwise_of_isGreatest (rf : Raft C me) (server : Fin n)
    {xs : List (AppendEntriesArgs n C)}
    (h : ∀ ys, ys <+: xs → ys ≠ [] →
      IsGreatest {i | ∃ a ∈ ys, a.lastIndex = i} ((rf.acknowledged server ys).matchIndex server)) :
    xs.Pairwise fun a b => a.lastIndex ≤ b.lastIndex := by
  rw [List.pairwise_iff_getElem]
  intro i j hi hj hij
  have htake : xs.take (j + 1) = xs.take j ++ [xs[j]] := List.take_succ_eq_append_getElem hj
  have hne : xs.take (j + 1) ≠ [] := by
    rw [htake]
    exact List.append_ne_nil_of_right_ne_nil _ (List.cons_ne_nil _ _)
  -- the reply at place `j` is not below an earlier one
  have hge := (h (xs.take (j + 1)) (List.take_prefix _ _) hne).2
  rw [htake, acknowledged_matchIndex_concat] at hge
  have hmem : xs[i] ∈ xs.take j := List.mem_iff_getElem.mpr
    ⟨i, by rw [List.length_take]; omega, List.getElem_take⟩
  exact hge ⟨xs[i], List.mem_append_left _ hmem, rfl⟩

/-- **When the order of acknowledgements does not matter.**  A leader processes the
successful replies of a peer to the requests `xs`, in that order, and stays leader of its
term.  At every point `matchIndex` is the largest acknowledged index exactly when the
replies come in the order of these indices, and then it never decreases; the resulting
commit index is the same for every order. -/
theorem acks_in_order_iff (rf : Raft C me) (server : Fin n) (xs : List (AppendEntriesArgs n C)) :
    ∃ after : List (AppendEntriesArgs n C) → Raft C me,
      (∀ ys, rf.acknowledge server ys = .ok (after ys) ∧ (after ys).state = rf.state ∧
        (after ys).currentTerm = rf.currentTerm) ∧
      ((∀ ys, ys <+: xs → ys ≠ [] →
          IsGreatest {i | ∃ a ∈ ys, a.lastIndex = i} ((after ys).matchIndex server)) ↔
        xs.Pairwise (fun a b => a.lastIndex ≤ b.lastIndex)) ∧
      (xs.Pairwise (fun a b => a.lastIndex ≤ b.lastIndex) →
        ∀ ys zs, ys <+: zs → zs <+: xs → ys ≠ [] →
          (after ys).matchIndex server ≤ (after zs).matchIndex server) ∧
      ∀ ys, ys.Perm xs → (after ys).commitIndex = (after xs).commitIndex := by
  have hgreatest : xs.Pairwise (fun a b => a.lastIndex ≤ b.lastIndex) → ∀ ys, ys <+: xs → ys ≠ [] →
      IsGreatest {i | ∃ a ∈ ys, a.lastIndex = i}
        ((rf.acknowledged server ys).matchIndex server) := fun hsorted ys hys hne =>
    isGreatest_matchIndex rf server (hsorted.sublist hys.sublist) hne
  refine ⟨rf.acknowledged server, fun ys => ⟨acknowledge_eq rf server ys,
    (acknowledged_core rf server ys).1, (acknowledged_core rf server ys).2.1⟩,
    ⟨pairwise_of_isGreatest rf server, hgreatest⟩, ?_, ?_⟩
  · intro hsorted ys zs hyz hzs hne
    obtain ⟨⟨a, ha, hai⟩, -⟩ := hgreatest hsorted ys (hyz.trans hzs) hne
    have hzne : zs ≠ [] := by
      rintro rfl
      exact hne (List.prefix_nil.mp hyz)
    rw [← hai]
    exact (hgreatest hsorted zs hzs hzne).2 ⟨a, hyz.subset ha, rfl⟩
  · intro ys hperm
    refine eq_of_forall_le_iff fun j => ?_
    rw [le_acknowledged_commitIndex_iff, le_acknowledged_commitIndex_iff]
    simp only [hperm.mem_iff]

end Raft

/-! ## An acknowledgement that is overtaken -/

/-- Server `0` leads term `1`, sends an empty request to server `1` and then one with its
new entry; server `1` accepts both, and the reply to the second one arrives first. -/
def overtakenAck : (raftSystem 3 ℕ).Run :=
  (raftSystem 3 ℕ).ofList
    [.electionTimeout 0, .deliver 0, .deliver 2, .sendHeartbeat 0 0, .startRead 0 7,
      .startAppend 0 0, .heartbeatTimeout 0, .sendHeartbeat 0 1, .deliver 3, .deliver 4,
      .deliver 6, .deliver 5]

/-- So a leader's `matchIndex` need not be the largest index that a peer has acknowledged
to it in its term, and it may decrease while the leader keeps its term. -/
theorem acks_any_order_fails :
    (¬ ∀ (r : (raftSystem 3 ℕ).Run) (k : ℕ) (s p : Fin 3) (xs : List (AppendEntriesArgs 3 ℕ))
        (rf : Raft ℕ s), ((r.state k).nodes s).state = .leader →
      (∀ a ∈ xs, a.term = ((r.state k).nodes s).currentTerm ∧
        ∃ (j : ℕ) (call : AppendCall 3 ℕ), ((r.state k).nodes s).appends[j]? = some call ∧
          call.server = p ∧ call.args = a ∧
          .appendEntriesReply s ((r.state k).nodes s).epoch j p { success := true }
            ∈ (r.state k).net) →
      xs ≠ [] → ((r.state k).nodes s).acknowledge p xs = .ok rf →
      IsGreatest {i | ∃ a ∈ xs, a.lastIndex = i} (rf.matchIndex p)) ∧
    ¬ ∀ (r : (raftSystem 3 ℕ).Run) (k : ℕ) (s p : Fin 3),
      ((r.state k).nodes s).state = .leader → ((r.state (k + 1)).nodes s).state = .leader →
      ((r.state (k + 1)).nodes s).currentTerm = ((r.state k).nodes s).currentTerm →
      ((r.state k).nodes s).matchIndex p ≤ ((r.state (k + 1)).nodes s).matchIndex p := by
  constructor
  · intro h
    let early : AppendEntriesArgs 3 ℕ := ⟨1, 0, 0, 0, [], 0⟩
    let late : AppendEntriesArgs 3 ℕ := ⟨1, 0, 0, 0, [⟨7, 1⟩], 0⟩
    have hgreatest := h overtakenAck 10 0 1 [late, early] _ (by decide) ?_ (by simp)
      (Raft.acknowledge_eq _ 1 [late, early])
    · have hle := hgreatest.2 ⟨late, by simp, rfl⟩
      have hzero : (((overtakenAck.state 10).nodes 0).acknowledged 1 [late, early]).matchIndex 1
          = 0 := congrFun (Raft.acknowledged_matchIndex _ 1 [late] early) 1
      rw [hzero] at hle
      cases hle
    · intro a ha
      rcases List.mem_pair.mp ha with rfl | rfl
      · exact ⟨by decide, 1, ⟨1, late, true⟩, rfl, rfl, rfl, by decide⟩
      · exact ⟨by decide, 0, ⟨1, early, true⟩, rfl, rfl, rfl, by decide⟩
  · intro h
    have hle := h overtakenAck 11 0 1 (by decide) (by decide) (by decide)
    revert hle
    decide

end Mit6824
