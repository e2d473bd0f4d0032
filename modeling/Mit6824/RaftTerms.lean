/-
# The terms along a log

Entries enter a log by two routes: `Start` appends one with the term it has
read, and `AppendEntries` splices those of a request behind an entry whose term
matches.  The second route keeps the terms of a log in order (`mergeLogs_terms`
and `Ascending.splice`); the first one does so when the server is still in the
term that `Start` has read, which the code does not check (`KeepsTerm`).

`TermInv` says that logs and append requests ascend in their terms and stay below
the term of their server; no condition on elections is needed for it.
-/
import Mit6824.RaftLog

namespace Mit6824

/-! ## Ascending terms -/

/-- The terms `ts` never decrease, and none of them is above `T`. -/
structure Ascending (ts : List ℕ) (T : ℕ) : Prop where
  pairwise : ts.Pairwise (· ≤ ·)
  bound : ∀ t ∈ ts, t ≤ T

namespace Ascending

variable {ts us : List ℕ} {t T U : ℕ}

theorem mono (h : Ascending ts T) (hT : T ≤ U) : Ascending ts U :=
  ⟨h.pairwise, fun t ht => (h.bound t ht).trans hT⟩

theorem drop (h : Ascending ts T) (i : ℕ) : Ascending (ts.drop i) T :=
  ⟨h.pairwise.sublist (List.drop_sublist i ts), fun t ht => h.bound t (List.mem_of_mem_drop ht)⟩

theorem concat (h : Ascending ts T) : Ascending (ts ++ [T]) T where
  pairwise := by
    rw [List.pairwise_append]
    refine ⟨h.pairwise, List.pairwise_singleton _ _, ?_⟩
    intro x hx y hy
    rw [List.mem_singleton.mp hy]
    exact h.bound x hx
  bound := by
    intro x hx
    rcases List.mem_append.mp hx with hx | hx
    · exact h.bound x hx
    · exact (List.mem_singleton.mp hx).le

/-- What follows a term in one ascending list may follow it in another. -/
theorem splice (h : Ascending ts T) {i : ℕ} (hi : ts[i]? = some t)
    (h' : Ascending (t :: us) U) : Ascending (ts.take (i + 1) ++ us) U := by
  obtain ⟨hafter, hus⟩ := List.pairwise_cons.mp h'.pairwise
  -- everything up to the shared term is at most that term
  have hbefore : ∀ x ∈ ts.take (i + 1), x ≤ t := by
    intro x hx
    obtain ⟨hlt, hget⟩ := List.getElem?_eq_some_iff.mp hi
    rw [List.take_succ_eq_append_getElem hlt, hget, List.mem_append, List.mem_singleton] at hx
    rcases hx with hx | rfl
    · have hpair := h.pairwise
      rw [← List.take_append_drop i ts, List.pairwise_append] at hpair
      refine hpair.2.2 x hx t ?_
      rw [List.drop_eq_getElem_cons hlt, hget]
      exact List.mem_cons_self
    · exact le_rfl
  constructor
  · rw [List.pairwise_append]
    refine ⟨h.pairwise.sublist (List.take_sublist _ _), hus, ?_⟩
    intro x hx y hy
    exact (hbefore x hx).trans (hafter y hy)
  · intro x hx
    rcases List.mem_append.mp hx with hx | hx
    · exact (hbefore x hx).trans (h'.bound t List.mem_cons_self)
    · exact h'.bound x (List.mem_cons_of_mem _ hx)

end Ascending

/-! ## The merge of `AppendEntries`, seen through the terms -/

namespace Raft

variable {n : ℕ} {C : Type} {logs : List (LogEntry C)}

/-- Entries that match a stretch of the log have the terms of that stretch. -/
theorem terms_of_matches {entries : List (LogEntry C)} {start u : ℕ} (hu : u ≤ entries.length)
    (h : ∀ j e, j < u → entries[j]? = some e → Matches logs (start + j) e) :
    ((logs.map LogEntry.term).drop start).take u = (entries.map LogEntry.term).take u := by
  apply List.ext_getElem?
  intro j
  rw [List.getElem?_take, List.getElem?_take]
  split_ifs with hj
  · have he : entries[j]? = some (entries.get ⟨j, by omega⟩) := by
      rw [List.getElem?_eq_getElem (by omega)]
      rfl
    rw [List.getElem?_drop, List.getElem?_map, List.getElem?_map, h j _ hj he, he]
    rfl
  · rfl

/-- **The terms after a merge** are those of the log as it was, or those up to the
previous entry followed by all the terms of the request. -/
theorem mergeLogs_terms (logs : List (LogEntry C)) (args : AppendEntriesArgs n C) :
    mergeLogs logs args = logs ∨
      (mergeLogs logs args).map LogEntry.term =
        (logs.map LogEntry.term).take (args.prevLogIndex + 1) ++
          args.entries.map LogEntry.term := by
  unfold mergeLogs
  rcases hu : unmatchIdx logs (args.prevLogIndex + 1) 0 args.entries with _ | u
  · exact .inl rfl
  · obtain ⟨v, hv, hbefore, e, he, -⟩ := matches_of_unmatchIdx_some hu
    obtain rfl : u = v := by omega
    obtain ⟨hulen, -⟩ := List.getElem?_eq_some_iff.mp he
    have hmatch : ∀ j e, j < u → args.entries[j]? = some e →
        Matches logs (args.prevLogIndex + 1 + j) e := hbefore
    have hterms := terms_of_matches hulen.le hmatch
    refine .inr ?_
    rw [List.map_append, List.map_take, List.map_drop, List.take_add, hterms, List.append_assoc,
      List.take_append_drop]

end Raft

namespace Cluster

variable {n : ℕ} {C : Type} {c : Cluster n C} {a : Action n C} {s : Fin n}
  {rf : Raft C s} {msgs : List (Msg n C)} {events : List (Event n C)}

/-! ## The condition on `Start` -/

/-- `Start` appends only while its server is still in the term it has read. -/
def KeepsTerm (c : Cluster n C) : Action n C → Prop :=
  c.Appends fun s p => (c.nodes s).currentTerm = p.term

instance (c : Cluster n C) (a : Action n C) : Decidable (c.KeepsTerm a) :=
  inferInstanceAs (Decidable (c.Appends _ a))

/-! ## The invariant -/

/-- Logs and append requests ascend in their terms. -/
structure TermInv (c : Cluster n C) : Prop where
  log : ∀ s, Ascending ((c.nodes s).logs.map LogEntry.term) (c.nodes s).currentTerm
  message : ∀ {src e k dst args}, .appendEntries src e k dst args ∈ c.net →
    Ascending (args.prevLogTerm :: args.entries.map LogEntry.term) args.term

theorem termInv_init [Inhabited C] : TermInv (Cluster.init n C) where
  log := fun _ => ⟨List.pairwise_singleton _ _, by
    intro t ht
    exact (List.mem_singleton.mp ht).le⟩
  message := fun hm => nomatch hm

/-- A request is cut from the log of its leader. -/
theorem TermInv.appendArgs (hi : TermInv c) {i : ℕ} {prev : LogEntry C}
    (hprev : (c.nodes s).logs[i]? = some prev) :
    Ascending (((c.nodes s).appendArgs i prev).prevLogTerm ::
      ((c.nodes s).appendArgs i prev).entries.map LogEntry.term)
      ((c.nodes s).appendArgs i prev).term := by
  obtain ⟨hlt, hget⟩ := List.getElem?_eq_some_iff.mp hprev
  have hdrop := (hi.log s).drop i
  rw [← List.map_drop, List.drop_eq_getElem_cons hlt, hget, List.map_cons] at hdrop
  exact hdrop

/-- Every message that is sent ascends. -/
theorem TermInv.put_message (hi : TermInv c) (hcore : CoreMove c a s rf msgs events)
    {src dst : Fin n} {e k : ℕ} {args : AppendEntriesArgs n C}
    (hm : .appendEntries src e k dst args ∈ (c.put s rf msgs events).net) :
    Ascending (args.prevLogTerm :: args.entries.map LogEntry.term) args.term := by
  rcases List.mem_append.mp hm with hold | hnew
  · exact hi.message hold
  · cases hcore with
    | drift a s rf msgs events hdrift hstate hquiet =>
        obtain ⟨-, i, prev, hprev, rfl⟩ := hquiet.append hnew
        exact hi.appendArgs hprev
    | _ => simp at hnew

/-- The log of the server that moves still ascends. -/
theorem TermInv.put_log (hi : TermInv c) (hcore : CoreMove c a s rf msgs events)
    (hok : c.KeepsTerm a) : Ascending (rf.logs.map LogEntry.term) rf.currentTerm := by
  rcases hcore.logs_cases with hlogs |
    ⟨src, e, k, args, prev, hm, hle, hprev, hprevTerm, hterm, hlogs⟩ | ⟨k, p, ha, hp, hterm, hlogs⟩
  · rw [hlogs]
    exact (hi.log s).mono hcore.currentTerm_le
  · rw [hlogs, hterm]
    rcases Raft.mergeLogs_terms (c.nodes s).logs args with hsame | hterms
    · rw [hsame]
      exact (hi.log s).mono hle
    · rw [hterms]
      -- the request continues the log at the previous entry
      refine (hi.log s).splice (t := args.prevLogTerm) ?_ (hi.message hm)
      rw [List.getElem?_map, hprev, Option.map_some, hprevTerm]
  · subst ha
    have hstart : (c.nodes s).currentTerm = p.term := hok (s, k) rfl p hp
    rw [hlogs, hterm, List.map_append, List.map_singleton, ← hstart]
    exact (hi.log s).concat

/-- Every step that keeps the term of a `Start` keeps the invariant. -/
theorem TermInv.put (hi : TermInv c) (hcore : CoreMove c a s rf msgs events)
    (hok : c.KeepsTerm a) : TermInv (c.put s rf msgs events) where
  log := (forall_put (P := fun _ node =>
    Ascending (node.logs.map LogEntry.term) node.currentTerm)).mpr
      ⟨hi.put_log hcore hok, fun t _ => hi.log t⟩
  message := hi.put_message hcore

end Cluster

/-! ## Log terms never decrease -/

section Runs

variable {n : ℕ} {C : Type} [Inhabited C]

/-- The invariant holds at every moment of a run that keeps the terms of its
`Start`s. -/
theorem termInv_run (r : (raftSystem n C).Run) (hok : r.Meets Cluster.KeepsTerm) (k : ℕ) :
    (r.state k).TermInv := by
  have h := r.invariant hok (I := fun c => c.VoteInv ∧ c.TermInv)
    ⟨Cluster.voteInv_init, Cluster.termInv_init⟩ (by
      rintro c a c' ⟨hvotes, hi⟩ hkeeps hstep
      obtain ⟨s, rf, msgs, events, rfl, hmove⟩ := Cluster.step_move hstep
      exact ⟨hvotes.step hstep, hi.put (hmove.core (hvotes.synced s)) hkeeps⟩)
  exact (h k).2

/-- **Log terms never decrease.**  In every run in which a `Start` appends only while
its server is still in the term it has read, the terms along the log of every server
never decrease with the index. -/
theorem logTerms_monotone (r : (raftSystem n C).Run) (hok : r.Meets Cluster.KeepsTerm)
    (k : ℕ) (s : Fin n) (i j : ℕ) (hij : i ≤ j) (e e' : LogEntry C)
    (he : ((r.state k).nodes s).logs[i]? = some e)
    (he' : ((r.state k).nodes s).logs[j]? = some e') : e.term ≤ e'.term := by
  have hpair := ((termInv_run r hok k).log s).pairwise
  rcases hij.lt_or_eq with hlt | rfl
  · obtain ⟨hi, hget⟩ := List.getElem?_eq_some_iff.mp he
    obtain ⟨hj, hget'⟩ := List.getElem?_eq_some_iff.mp he'
    rw [List.pairwise_map] at hpair
    rw [← hget, ← hget']
    exact List.pairwise_iff_getElem.mp hpair i j hi hj hlt
  · rw [Option.some.inj (he.symm.trans he')]

/-- The log of server `1` in `handover` holds entries of the terms `1` and `2`. -/
theorem logTerms_monotone_handover :
    handover.Meets Cluster.KeepsTerm ∧
      ((handover.state 21).nodes 1).logs[1]? = some ⟨7, 1⟩ ∧
      ((handover.state 21).nodes 1).logs[2]? = some ⟨8, 2⟩ ∧ 1 ≤ 2 := by
  have hok : handover.Meets Cluster.KeepsTerm :=
    TransitionSystem.meets_ofList (by decide)
  have h1 : ((handover.state 21).nodes 1).logs[1]? = some ⟨7, 1⟩ := by decide
  have h2 : ((handover.state 21).nodes 1).logs[2]? = some ⟨8, 2⟩ := by decide
  exact ⟨hok, h1, h2, logTerms_monotone handover hok 21 1 1 2 (by decide) _ _ h1 h2⟩

/-- Without the condition, the late `Start` of `lateStart` puts an entry of term `1`
behind one of term `2`. -/
theorem logTerms_monotone_fails :
    ¬ ∀ (r : (raftSystem 3 ℕ).Run) (k : ℕ) (s : Fin 3) (i j : ℕ), i ≤ j →
      ∀ e e' : LogEntry ℕ, ((r.state k).nodes s).logs[i]? = some e →
      ((r.state k).nodes s).logs[j]? = some e' → e.term ≤ e'.term := by
  intro h
  have h1 : ((lateStart.state 17).nodes 0).logs[1]? = some ⟨9, 2⟩ := by decide
  have h2 : ((lateStart.state 17).nodes 0).logs[2]? = some ⟨7, 1⟩ := by decide
  have hle := h lateStart 17 0 1 2 (by decide) _ _ h1 h2
  exact absurd hle (by decide)

end Runs

end Mit6824
